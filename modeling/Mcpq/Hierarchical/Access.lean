import Mcpq.Hierarchical.Eviction
import Mcpq.Hierarchical.Live

/-!
# Accesses

What `access` does to a manager whose invariant holds.

* `Rep.access_hit`: the page is in memory. It gets the timestamp of a later clock, and represents
  its chain (`Hits`);
* `Rep.access_fault`: the page is not in memory. A frame is found, by an eviction if there is no
  free one (`Allocs`), and the page is loaded to it and linked to the chain it was last assigned to
  (`Faults`);
* `Rep.access_error`: the access ends with an exception if that chain has been released.
-/

namespace Mcpq.Hierarchical

namespace HierarchicalMemoryManager

/-- The chain which the page of an address is assigned to when it is loaded. -/
def homeChain (s : HierarchicalMemoryManager) (a : ℤ) : ℤ :=
  match s.swap a with
  | some p =>
    if (s.heap.page p).assigned ≠ -1 then (s.heap.page p).assigned
    else SystemQueue.default.ordinal
  | none => SystemQueue.default.ordinal

/-- The page `p` is accessed in memory. -/
structure Hits (s s' : HierarchicalMemoryManager) (p : PageRef) : Prop where
  rest : s' = { s with heap := s.heap.refPage p, chains := s'.chains }
  frame_eq : ∀ d, (s'.chains d).frame = (s.chains d).frame

/-- A frame is found for a page: `v` is the page evicted. -/
inductive Allocs (s : HierarchicalMemoryManager) (L : ℤ → List PageRef) :
    HierarchicalMemoryManager → (ℤ → List PageRef) → Option PageRef → Prop
  | free : none ∈ s.memory.pages → Allocs s L s L none
  | evict {s' : HierarchicalMemoryManager} {id : ℤ} {p : PageRef} : none ∉ s.memory.pages →
      Evicts s s' L id p → Allocs s L s' (Function.update L id ((L id).erase p)) (some p)

/-- A frame is found for a page: `v` is the page that leaves memory, which any page may. -/
inductive Frees (s : HierarchicalMemoryManager) (L : ℤ → List PageRef) :
    HierarchicalMemoryManager → (ℤ → List PageRef) → Option PageRef → Prop
  | free : none ∈ s.memory.pages → Frees s L s L none
  | remove {s' : HierarchicalMemoryManager} {id : ℤ} {p : PageRef} : none ∉ s.memory.pages →
      Removes s s' L id p → Frees s L s' (Function.update L id ((L id).erase p)) (some p)

/-- The page `p` of the address `a` is loaded to a free frame. -/
structure Faults (s s' : HierarchicalMemoryManager) (a : ℤ) (p : PageRef) : Prop where
  page : s.swap a = some p ∨ s.swap a = none ∧ p = s.heap.fresh
  lt_fresh_iff : ∀ r, r < s'.heap.fresh ↔ r = p ∨ r < s.heap.fresh
  core_eq : ∀ q, q ≠ p → (s'.heap.page q).core = (s.heap.page q).core
  assigned_eq : ∀ q, (s'.heap.page q).assigned = (s.heap.page q).assigned
  resides_eq : ∀ q, (s'.heap.page q).resides =
    if q = p then s.homeChain a else (s.heap.page q).resides
  address_eq : (s'.heap.page p).address = a
  timestamp_eq : (s'.heap.page p).timestamp = s.heap.clock.current + 2
  clock_eq : s'.heap.clock.current = s.heap.clock.current + 2
  frames : ∃ f : ℕ, s.memory.pages[f]? = some none ∧
    s'.memory.pages = s.memory.pages.set f (some p)
  swap_eq : s'.swap = s.swap
  usrChains_eq : s'.usrChains = s.usrChains
  chainId_eq : s'.chainId = s.chainId
  size_eq : s'.size = s.size

variable {s s' s₁ : HierarchicalMemoryManager} {L L₁ : ℤ → List PageRef} {id a : ℤ}
  {p r : PageRef} {v : Option PageRef} {f : ℕ}

namespace Hits

/-- A hit writes one page only. -/
theorem page_of_ne (h : Hits s s' p) {q : PageRef} (hq : q ≠ p) :
    s'.heap.page q = s.heap.page q := by
  rw [h.rest]
  simp [Heap.refPage, Heap.modify_page_of_ne _ _ hq]

/-- What the hit leaves of the page. -/
theorem page_self (h : Hits s s' p) : s'.heap.page p = (s.heap.page p).ref s.heap.clock := by
  rw [h.rest]
  simp [Heap.refPage]

/-- The page is stamped with the time of the access. -/
theorem timestamp_eq (h : Hits s s' p) :
    (s'.heap.page p).timestamp = s.heap.clock.current + 1 := by
  rw [h.page_self]
  rfl

/-- The clock has advanced by one. -/
theorem clock_eq (h : Hits s s' p) : s'.heap.clock.current = s.heap.clock.current + 1 := by
  rw [h.rest]
  rfl

theorem fresh_eq (h : Hits s s' p) : s'.heap.fresh = s.heap.fresh := by rw [h.rest]; rfl

theorem memory_eq (h : Hits s s' p) : s'.memory = s.memory := by rw [h.rest]

theorem usrChains_eq (h : Hits s s' p) : s'.usrChains = s.usrChains := by rw [h.rest]

/-- A hit changes the timestamp of the page, and whether it is referenced. -/
theorem page_eq (h : Hits s s' p) (q : PageRef) :
    { s'.heap.page q with timestamp := 0, refrenced := false, hit := 0 } =
      ({ s.heap.page q with timestamp := 0, refrenced := false, hit := 0 } : Page) := by
  by_cases hq : q = p
  · rw [hq, h.page_self]
    rfl
  · rw [h.page_of_ne hq]

/-- No page moves. -/
theorem place_eq (h : Hits s s' p) (q : PageRef) :
    (s'.heap.page q).place = (s.heap.page q).place :=
  (congrArg Page.place (h.page_eq q) :)

theorem resides_eq (h : Hits s s' p) (q : PageRef) :
    (s'.heap.page q).resides = (s.heap.page q).resides :=
  (congrArg Page.resides (h.page_eq q) :)

theorem address_eq (h : Hits s s' p) (q : PageRef) :
    (s'.heap.page q).address = (s.heap.page q).address :=
  (congrArg Page.address (h.page_eq q) :)

theorem assigned_eq (h : Hits s s' p) (q : PageRef) :
    (s'.heap.page q).assigned = (s.heap.page q).assigned :=
  (congrArg Page.assigned (h.page_eq q) :)

end Hits

namespace Faults

variable (h : Faults s s' a p)
include h

/-- The other pages keep their timestamps. -/
theorem timestamp_of_ne {q : PageRef} (hq : q ≠ p) :
    (s'.heap.page q).timestamp = (s.heap.page q).timestamp :=
  (congrArg Page.timestamp (h.core_eq q hq) :)

/-- The other pages keep their addresses. -/
theorem address_of_ne {q : PageRef} (hq : q ≠ p) :
    (s'.heap.page q).address = (s.heap.page q).address :=
  (congrArg Page.address (h.core_eq q hq) :)

/-- The page that is loaded is resident, and no other one changes. -/
theorem resident_iff : s'.Resident r ↔ r = p ∨ s.Resident r := by
  obtain ⟨f, hf, hpages⟩ := h.frames
  have hlt : f < s.memory.pages.length := (List.getElem?_eq_some_iff.1 hf).1
  simp only [HierarchicalMemoryManager.resident_iff, hpages, getElem?_set_some hlt,
    Option.some.injEq]
  constructor
  · rintro ⟨i, ⟨-, hrp⟩ | ⟨-, hi⟩⟩
    · exact .inl hrp.symm
    · exact .inr ⟨i, hi⟩
  · rintro (rfl | ⟨i, hi⟩)
    · exact ⟨f, .inl ⟨rfl, rfl⟩⟩
    · refine ⟨i, .inr ⟨?_, hi⟩⟩
      rintro rfl
      rw [hf] at hi
      cases hi

end Faults

/-- A frame is allocated: one is free, or a page is evicted. -/
theorem Allocs.frees (h : Allocs s L s₁ L₁ v) : Frees s L s₁ L₁ v := by
  cases h with
  | free hfree => exact .free hfree
  | evict hfull he => exact .remove hfull he.toRemoves

namespace Frees

/-- The representation holds again. -/
theorem rep (h : Frees s L s₁ L₁ v) (hs : s.Rep L) : s₁.Rep L₁ := by
  cases h with
  | free => exact hs
  | remove _ he => exact he.rep

/-- The cached timestamps stay right. -/
theorem valid (h : Frees s L s₁ L₁ v) (hv : s.CacheValid L) : s₁.CacheValid L₁ := by
  cases h with
  | free => exact hv
  | remove _ he => exact he.valid hv

/-- The victim is not resident any more, and no other page changes. -/
theorem resident_iff (h : Frees s L s₁ L₁ v) (hs : s.Rep L) :
    s₁.Resident r ↔ s.Resident r ∧ v ≠ some r := by
  cases h with
  | free => simp
  | @remove _ id q _ he =>
    obtain ⟨f, hf, hpages⟩ := he.frames
    have := hs.store.resident_remove hf r
    rw [Resident, HierarchicalMemoryManager.remove, ← hpages] at this
    simpa [Resident, eq_comm] using this

/-- The page that is evicted was in memory. -/
theorem victim_resident (h : Frees s L s₁ L₁ v) (hs : s.Rep L) (hv : v = some r) :
    s.Resident r := by
  cases h with
  | free => cases hv
  | remove _ he =>
    cases hv
    exact hs.mem_resident he.mem

/-- The page of an address that is not in memory is where it was. -/
theorem swap_eq (h : Frees s L s₁ L₁ v) (hs : s.Rep L)
    (hn : ∀ r, s.Resident r → (s.heap.page r).address ≠ a) : s₁.swap a = s.swap a := by
  cases h with
  | free => rfl
  | remove _ he =>
    rw [he.swap_eq, Function.update_of_ne (hn _ (hs.mem_resident he.mem)).symm]

variable (h : Frees s L s₁ L₁ v)
include h

theorem core_eq (q : PageRef) : (s₁.heap.page q).core = (s.heap.page q).core := by
  cases h with
  | free => rfl
  | remove _ he => exact he.core_eq q

theorem address_eq (q : PageRef) : (s₁.heap.page q).address = (s.heap.page q).address :=
  (congrArg Page.address (h.core_eq q) :)

theorem timestamp_eq (q : PageRef) :
    (s₁.heap.page q).timestamp = (s.heap.page q).timestamp :=
  (congrArg Page.timestamp (h.core_eq q) :)

theorem assigned_eq (q : PageRef) :
    (s₁.heap.page q).assigned = (s.heap.page q).assigned := by
  cases h with
  | free => rfl
  | remove _ he => exact he.assigned_eq q

theorem fresh_eq : s₁.heap.fresh = s.heap.fresh := by
  cases h with
  | free => rfl
  | remove _ he => exact he.fresh_eq

theorem clock_eq : s₁.heap.clock = s.heap.clock := by
  cases h with
  | free => rfl
  | remove _ he => exact he.clock_eq

theorem usrChains_eq : s₁.usrChains = s.usrChains := by
  cases h with
  | free => rfl
  | remove _ he => exact he.usrChains_eq

theorem size_eq : s₁.size = s.size := by
  cases h with
  | free => rfl
  | remove _ he => exact he.size_eq

end Frees

/-- The pages without a frame keep their timestamps. -/
theorem Frees.settled (h : Frees s L s₁ L₁ v) (hs : s.Rep L) (hset : s.Settled) :
    s₁.Settled := by
  intro r hr
  obtain ⟨hr', hne⟩ := (h.resident_iff hs).1 hr
  cases h with
  | free => exact hset r hr
  | remove _ he =>
    rw [he.resides_eq, if_neg fun h => hne (congrArg some h.symm)]
    exact hset r hr'

/-- The chain that the page of the address goes to is the same as before the eviction. -/
theorem Frees.homeChain_eq (h : Frees s L s₁ L₁ v) (hs : s.Rep L)
    (hn : ∀ r, s.Resident r → (s.heap.page r).address ≠ a) : s₁.homeChain a = s.homeChain a := by
  rw [homeChain, homeChain, h.swap_eq hs hn]
  simp only [h.assigned_eq]

/-- The page that is loaded is not one of those in memory. -/
theorem Frees.ne_loaded (h : Frees s L s₁ L₁ v) (hs : s.Rep L)
    (hn : ∀ r, s.Resident r → (s.heap.page r).address ≠ a)
    (hp : s₁.swap a = some p ∨ s₁.swap a = none ∧ p = s₁.heap.fresh) (hr : s.Resident r) :
    r ≠ p := by
  rintro rfl
  rcases hp with hp | ⟨-, hp⟩
  · rw [h.swap_eq hs hn] at hp
    exact hn r hr (hs.store.swap_eq a r hp).2
  · rw [h.fresh_eq] at hp
    exact (hs.store.lt_fresh hr).ne hp

/-- The chain a page is linked to again. -/
def relinkChain (s : HierarchicalMemoryManager) (p : PageRef) : ℤ :=
  if (s.heap.page p).assigned ≠ -1 then (s.heap.page p).assigned
  else SystemQueue.default.ordinal

/-- The page is linked to the chain it is assigned to. -/
theorem relink_eq (hc : s.IsChain (relinkChain s p)) :
    s.relink p = (s.chainLink (relinkChain s p) p).map (·.2) := by
  rw [relink]
  rw [relinkChain] at hc ⊢
  split_ifs at hc ⊢
  · rw [chainOf_eq hc]
    rfl
  · rfl

/-- The chain it is assigned to has been released. -/
theorem relink_error (hc : ¬s.IsChain (relinkChain s p)) : s.relink p = .error .nullPointer := by
  rw [relink]
  rw [relinkChain] at hc
  split_ifs at hc ⊢
  · rw [chainOf, usrChain, if_neg fun h => hc (.inl h), if_neg fun h => hc (.inr h)]
    rfl
  · exact absurd (.inl (by decide)) hc

namespace Rep

/-! ## Hits -/

/-- What keeps the lists of the chains, and gives a page the timestamp of a later clock. -/
theorem represent_eq (hp : s.IsChain (s.heap.page p).resides) :
    ∃ s', s.represent p = .ok s' ∧ s' = { s with chains := s'.chains } ∧
      ∀ d, s'.chains d =
        if d = (s.heap.page p).resides ∧ isUsrMemChain d then
          (s.chains d).setRepresentative s.heap p
        else s.chains d := by
  rw [represent]
  by_cases husr : isUsrMemChain (s.heap.page p).resides = true
  · have hmem : (s.heap.page p).resides ∈ s.usrChains := by
      refine hp.resolve_left fun h => ?_
      exact isUsrMemChain_iff.1 husr (isSysMemChain_iff.1 h)
    rw [if_pos husr, usrChain, if_pos hmem]
    refine ⟨_, rfl, rfl, fun d => ?_⟩
    by_cases hd : d = (s.heap.page p).resides
    · subst hd
      rw [if_pos ⟨rfl, husr⟩]
      exact Function.update_self ..
    · rw [if_neg fun h => hd h.1]
      exact Function.update_of_ne hd _ _
  · rw [if_neg husr]
    refine ⟨s, rfl, rfl, fun d => ?_⟩
    rw [if_neg]
    rintro ⟨rfl, h⟩
    exact husr h

/-- Only the representative and the timestamp change. -/
theorem setRepresentative_frame (c : MemoryChain) (h : Heap) (p : PageRef) :
    (c.setRepresentative h p).frame = c.frame := by
  rw [MemoryChain.setRepresentative]
  split_ifs <;> rfl

/-- The cached timestamps after an access to a page of the chain `id`: that of the chain is the page's. -/
theorem hit_cacheOk (hs : s.Rep L) (hp : p ∈ L id) (hhit : Hits s s' p)
    (hself : id ∈ s.usrChains → (s'.chains id).timestamp = s.heap.clock.current + 1 ∧
      (s'.chains id).representative = some p)
    (hother : ∀ d, d ≠ id → s'.chains d = s.chains d) : s'.CacheOk L := by
  refine ⟨?_, ?_, ?_⟩
  · intro d hd
    rw [hhit.usrChains_eq] at hd
    rw [hhit.clock_eq]
    rcases eq_or_ne d id with rfl | hdi
    · rw [(hself hd).1]
    · rw [hother d hdi]
      exact (hs.cache.le_clock d hd).trans (Nat.le_succ _)
  · intro d hd r hr'
    rw [hhit.usrChains_eq] at hd
    rcases eq_or_ne d id with rfl | hdi
    · rw [(hself hd).1]
      rcases eq_or_ne r p with rfl | hrp
      · rw [hhit.timestamp_eq]
      · rw [hhit.page_of_ne hrp]
        exact (hs.store.stamp_le r (hs.lt_fresh hr')).trans (Nat.le_succ _)
    · have hrp : r ≠ p := by
        rintro rfl
        exact hdi (hs.eq_of_mem hr' hp)
      rw [hother d hdi, hhit.page_of_ne hrp]
      exact hs.cache.le_stamp d hd r hr'
  · intro d hd x hx
    rw [hhit.usrChains_eq] at hd
    rw [hhit.fresh_eq]
    rcases eq_or_ne d id with rfl | hdi
    · rw [(hself hd).2] at hx
      cases hx
      rw [(hself hd).1, hhit.timestamp_eq]
      exact ⟨hs.lt_fresh hp, le_rfl⟩
    · rw [hother d hdi] at hx ⊢
      obtain ⟨h₁, h₂⟩ := hs.cache.representative d hd x hx
      refine ⟨h₁, h₂.trans ?_⟩
      rcases eq_or_ne x p with rfl | hxp
      · rw [hhit.timestamp_eq]
        exact (hs.store.stamp_le x (hs.lt_fresh hp)).trans (Nat.le_succ _)
      · rw [hhit.page_of_ne hxp]

/-- An access to a page in memory. -/
theorem access_hit (hs : s.Rep L) (hp : p ∈ L id) (order : List ℤ) :
    ∃ s', s.access order (s.heap.page p).address = .ok (s', .hit) ∧ s'.Rep L ∧ Hits s s' p ∧
      (s.CacheValid L → s'.CacheValid L) := by
  obtain ⟨hr, hne⟩ := (hs.chains.mem_iff id p).1 hp
  obtain ⟨f, -, hf⟩ := hs.store.getElem?_frame (hs.mem_resident hp)
  have hlt := hs.lt_fresh hp
  set s₀ : HierarchicalMemoryManager := { s with heap := s.heap.refPage p } with hs₀
  have hr₀ : (s₀.heap.page p).resides = id := by
    simpa [hs₀, Heap.refPage, Page.ref] using hr
  obtain ⟨s', heq, hrest, hch⟩ := represent_eq (s := s₀) (p := p)
    (hr₀ ▸ hs.chains.isChain_of_mem hp)
  rw [hr₀] at hch
  have hhit : Hits s s' p := by
    refine ⟨hrest, fun d => ?_⟩
    rw [hch]
    split_ifs
    · exact setRepresentative_frame _ _ _
    · rfl
  have hstamp₀ : (s₀.heap.page p).timestamp = s.heap.clock.current + 1 := by
    simp [hs₀, Heap.refPage, Page.ref]
  -- A user chain gets the timestamp of the page.
  have hself : id ∈ s.usrChains → (s'.chains id).timestamp = s.heap.clock.current + 1 ∧
      (s'.chains id).representative = some p := by
    intro hid
    have hle := hs.cache.le_clock id hid
    have hcond : (s₀.heap.page p).timestamp > (s.chains id).timestamp ∧
        (s₀.heap.page p).resides = (s.chains id).id := by
      rw [hstamp₀, hr₀, hs.chains.id_eq]
      omega
    rw [hch, if_pos ⟨rfl, hs.ids.isUsr hid⟩, MemoryChain.setRepresentative, if_pos hcond]
    exact ⟨hstamp₀, rfl⟩
  have hother : ∀ d, d ≠ id → s'.chains d = s.chains d := fun d hd => by
    rw [hch, if_neg fun h => hd h.1]
  refine ⟨s', ?_, ⟨⟨?_, ?_, ?_⟩, hs.store.touch (p := p) ?_ hhit.fresh_eq hhit.address_eq ?_ ?_ ?_ ?_,
    hs.chains.congr hhit.place_eq ?_ ?_ hhit.frame_eq ?_, ?_, ?_⟩, hhit, ?_⟩
  · have hne' : ¬s.pageTable.lookup (s.heap.page p).address = -1 := by
      rw [hs.store.lookup_of_getElem? hf]
      omega
    rw [access, if_neg hne', hs.store.lookup_of_getElem? hf, hs.store.load_frame hf, ok_bind,
      deref_some, ok_bind, heq]
    rfl
  · rw [hhit.usrChains_eq]
    exact hs.ids.nodup
  · rw [hrest]
    exact hs.ids.range
  · rw [hrest]
    exact hs.ids.three_le
  · rw [hrest]
  · exact fun q => (congrArg Page.frame (hhit.page_eq q) :)
  · exact fun q hq => by rw [hhit.page_of_ne hq]
  · rw [hhit.timestamp_eq]
    exact Nat.lt_succ_self _
  · rw [hhit.timestamp_eq, hhit.clock_eq]
  · intro r hr'
    rw [hhit.fresh_eq] at hr'
    rw [hhit.page_of_ne (hlt.trans_le hr').ne']
    exact hs.chains.blank r hr'
  · rw [hrest]
    rfl
  · intro d _ hd
    rwa [IsChain, hhit.usrChains_eq]
  · exact hs.hit_cacheOk hp hhit hself hother
  · intro r hr'
    rw [hhit.resides_eq] at hr'
    rw [Resident, hhit.memory_eq]
    exact hs.resident r hr'
  · intro hv d hd hne' x hx
    rw [hhit.usrChains_eq] at hd
    by_cases hdi : d = id
    · subst hdi
      rw [(hself hd).2] at hx
      cases hx
      exact hp
    · rw [hother d hdi] at hx
      exact hv d hd hne' x hx

/-! ## Faults -/

/-- When memory is full, some chain holds a page. -/
theorem exists_ne_nil (hs : s.Rep L) (hset : s.Settled) (hsize : 0 < s.size)
    (hfull : none ∉ s.memory.pages) : ∃ d, L d ≠ [] := by
  obtain ⟨x, hx⟩ : ∃ x, x ∈ s.memory.pages :=
    List.exists_mem_of_length_pos (hs.store.length_eq ▸ hsize)
  obtain ⟨r, rfl⟩ := Option.ne_none_iff_exists'.1 fun h => hfull (h ▸ hx)
  exact ⟨_, List.ne_nil_of_mem (hs.mem_resides hset hx).1⟩

/-- A frame is found, if one is free or a page is on some chain. -/
theorem allocFrame (hs : s.Rep L) (hset : s.Settled) (hsize : 0 < s.size) {order : List ℤ}
    (ho : ∀ d, d ∈ order ↔ d ∈ s.usrChains) :
    ∃ s₁ L₁ v, ∃ f : ℕ, s.allocFrame order = .ok (s₁, f, v) ∧ Allocs s L s₁ L₁ v ∧
      s₁.memory.pages[f]? = some none := by
  by_cases hfree : none ∈ s.memory.pages
  · obtain ⟨f, hf, hpages⟩ := Memory.freeFrame_of_mem hs.store.bitmap_eq hfree
    refine ⟨s, L, none, f, ?_, .free hfree, hpages⟩
    rw [HierarchicalMemoryManager.allocFrame, hf, if_neg (by omega)]
  · obtain ⟨s₁, id, p, heq, he⟩ := hs.evict (hs.exists_ne_nil hset hsize hfree) ho
    obtain ⟨i, hi, hpages⟩ := he.frames
    obtain ⟨f, hf, hfp⟩ := Memory.freeFrame_of_mem he.rep.store.bitmap_eq
      (Memory.none_mem_of_set hi hpages)
    refine ⟨s₁, _, some p, f, ?_, .evict hfree he, hfp⟩
    rw [HierarchicalMemoryManager.allocFrame,
      if_pos (Memory.freeFrame_of_full hs.store.bitmap_eq hfree), heq]
    simp only [ok_bind, pure_eq_ok, hf]

/-- If a frame is found, whichever user chains an eviction goes through, it is free. -/
theorem allocFrame_frees (hs : s.Rep L) {order : List ℤ} (ho : ∀ d ∈ order, d ∈ s.usrChains)
    {frame : ℤ} (heq : s.allocFrame order = .ok (s₁, frame, v)) :
    ∃ L₁, ∃ f : ℕ, frame = f ∧ Frees s L s₁ L₁ v ∧ s₁.memory.pages[f]? = some none := by
  rw [HierarchicalMemoryManager.allocFrame] at heq
  by_cases hfree : none ∈ s.memory.pages
  · obtain ⟨f, hf, hpages⟩ := Memory.freeFrame_of_mem hs.store.bitmap_eq hfree
    rw [hf, if_neg (by omega)] at heq
    cases heq
    exact ⟨L, f, rfl, .free hfree, hpages⟩
  · rw [if_pos (Memory.freeFrame_of_full hs.store.bitmap_eq hfree)] at heq
    obtain ⟨⟨s₂, p⟩, hev, h⟩ := bind_eq_ok heq
    cases h
    obtain ⟨id, he⟩ := hs.evict_removes ho hev
    obtain ⟨i, hi, hpages⟩ := he.frames
    obtain ⟨f, hf, hfp⟩ := Memory.freeFrame_of_mem he.rep.store.bitmap_eq
      (Memory.none_mem_of_set hi hpages)
    exact ⟨_, f, hf, .remove hfree he, hfp⟩

/-- A frame is found if one is free, or if a chain that an eviction goes through holds a page. -/
theorem allocFrame_returns (hs : s.Rep L) {order : List ℤ} (ho : ∀ d ∈ order, d ∈ s.usrChains)
    (hne : none ∈ s.memory.pages ∨ ∃ d, (isSysMemChain d = true ∨ d ∈ order) ∧ L d ≠ []) :
    ∃ s₁ frame v, s.allocFrame order = .ok (s₁, frame, v) := by
  rw [HierarchicalMemoryManager.allocFrame]
  by_cases hfree : s.memory.freeFrame = -1
  · rw [if_pos hfree]
    obtain ⟨s', p, heq⟩ := hs.evict_returns ho <| hne.resolve_left fun hmem => by
      obtain ⟨f, hf, -⟩ := Memory.freeFrame_of_mem hs.store.bitmap_eq hmem
      omega
    rw [heq]
    exact ⟨_, _, _, rfl⟩
  · rw [if_neg hfree]
    exact ⟨_, _, _, rfl⟩

/-- A page without a frame is on no chain. -/
theorem resides_of_not_resident (hs : s.Rep L) (hp : ¬s.Resident p) :
    (s.heap.page p).resides = -1 := by
  by_contra hne
  exact hp (hs.resident p hne)

/-- A page to be loaded is on no chain before, and a new one is like what was not in use. -/
theorem loads_place (hs : s.Rep L) (hl : Loads s a s₁ p)
    (hn : ∀ r, s.Resident r → (s.heap.page r).address ≠ a) :
    (s₁.heap.page p).place = (s.heap.page p).place ∧
      (s₁.heap.page p).assigned = (s.heap.page p).assigned ∧ (s.heap.page p).resides = -1 := by
  rcases hl.page with ⟨h, hheap⟩ | ⟨-, rfl, h⟩
  · refine ⟨by rw [hheap], by rw [hheap], hs.resides_of_not_resident fun hp => ?_⟩
    exact hn p hp (hs.store.swap_eq a p h).2
  · rw [h, hs.chains.blank _ le_rfl]
    exact ⟨rfl, rfl, rfl⟩

/-- The pages stay on their chains. -/
theorem install_place (hs : s.Rep L) (hl : Loads s a s₁ p)
    (hn : ∀ r, s.Resident r → (s.heap.page r).address ≠ a) (q : PageRef) :
    ((s₁.install p f).heap.page q).place = (s.heap.page q).place := by
  rcases eq_or_ne q p with rfl | hq
  · rw [install_page_self]
    exact (hs.loads_place hl hn).1
  · rw [StoreOk.install_page_eq hl hq]

/-- The cached timestamps after a page has been loaded, which is on no chain. -/
theorem install_cacheOk (hs : s.Rep L) (hl : Loads s a s₁ p)
    (hn : ∀ r, s.Resident r → (s.heap.page r).address ≠ a) : (s₁.install p f).CacheOk L := by
  have hchains := hl.chains_eq
  have husr := hl.usrChains_eq
  refine ⟨?_, ?_, ?_⟩
  · intro d hd
    rw [install_clock, hl.clock_eq]
    refine le_trans ?_ (Nat.le_add_right _ 2)
    exact hchains ▸ hs.cache.le_clock d (husr ▸ hd)
  · intro d hd r hr
    have hrp : r ≠ p := by
      rintro rfl
      obtain ⟨hres, hd'⟩ := (hs.chains.mem_iff d r).1 hr
      exact hd' (hres.symm.trans (hs.loads_place hl hn).2.2)
    rw [StoreOk.install_page_eq hl hrp]
    exact hchains ▸ hs.cache.le_stamp d (husr ▸ hd) r hr
  · intro d hd x hx
    obtain ⟨h₁, h₂⟩ := hs.cache.representative d (husr ▸ hd) x (hchains ▸ hx)
    refine ⟨(hl.lt_fresh_iff x).2 (.inr h₁), ?_⟩
    change (s₁.chains d).timestamp ≤ _
    rw [hchains]
    rcases eq_or_ne x p with rfl | hxp
    · rw [StoreOk.install_timestamp hl]
      exact (hs.cache.le_clock d (husr ▸ hd)).trans (Nat.le_add_right _ 2)
    · rw [StoreOk.install_page_eq hl hxp]
      exact h₂

/-- A loaded page is on no chain yet. -/
theorem install (hs : s.Rep L) (hl : Loads s a s₁ p)
    (hn : ∀ r, s.Resident r → (s.heap.page r).address ≠ a) {f : ℕ}
    (hf : s.memory.pages[f]? = some none) :
    (s₁.install p f).Rep L ∧ ((s₁.install p f).heap.page p).resides = -1 ∧
      (s₁.install p f).Resident p ∧
      (s.CacheValid L → (s₁.install p f).CacheValid L) ∧
      ∀ q, ((s₁.install p f).heap.page q).assigned = (s.heap.page q).assigned := by
  have hchains := hl.chains_eq
  have husr := hl.usrChains_eq
  obtain ⟨-, hassigned, hnone⟩ := hs.loads_place hl hn
  have hplace := hs.install_place (f := f) hl hn
  have hres : ∀ q, ((s₁.install p f).heap.page q).resides = (s.heap.page q).resides :=
    fun q => (congrArg (·.2.2.1) (hplace q) :)
  have hget := StoreOk.getElem?_install hl hf
  refine ⟨⟨⟨?_, ?_, ?_⟩, hs.store.install hl hn hf, hs.chains.congr hplace ?_ ?_ ?_ ?_,
    hs.install_cacheOk hl hn, ?_⟩, (hres p).trans hnone, ?_, ?_, ?_⟩
  · exact husr ▸ hs.ids.nodup
  · exact husr ▸ hl.chainId_eq ▸ hs.ids.range
  · exact hl.chainId_eq ▸ hs.ids.three_le
  · intro r hr
    have hr' : ¬(r = p ∨ r < s.heap.fresh) := fun h => absurd ((hl.lt_fresh_iff r).2 h) (not_lt.2 hr)
    push Not at hr'
    rw [StoreOk.install_page_eq hl hr'.1]
    exact hs.chains.blank r hr'.2
  · exact hl.links_eq
  · intro d
    exact congrArg MemoryChain.frame (congrFun hchains d)
  · intro d _ hd
    rwa [IsChain, show (s₁.install p f).usrChains = s.usrChains from husr]
  · -- A page on a chain was in a frame that was not free.
    intro r hr
    have hr' : (s.heap.page r).resides ≠ -1 := fun h => hr ((hres r).trans h)
    obtain ⟨i, hi⟩ := resident_iff.1 (hs.resident r hr')
    refine resident_iff.2 ⟨i, (hget i r).2 (.inr ⟨?_, hi⟩)⟩
    rintro rfl
    rw [hf] at hi
    cases hi
  · exact resident_iff.2 ⟨f, (hget f p).2 (.inl ⟨rfl, rfl⟩)⟩
  · intro hv d hd hne x hx
    exact hv d (husr ▸ hd) hne x (hchains ▸ hx)
  · intro q
    rcases eq_or_ne q p with rfl | hq
    · rw [install_page_self]
      exact hassigned
    · rw [StoreOk.install_page_eq hl hq]

/-- The representative of a chain does not change if it is known to have the greatest
    timestamp. -/
theorem represent_of_mem (hs : s.Rep L) (hp : p ∈ L id) {V : List ℤ}
    (hc : (s.withLive V).IsChain id) : (s.withLive V).represent p = .ok (s.withLive V) := by
  obtain ⟨hr, -⟩ := (hs.chains.mem_iff id p).1 hp
  obtain ⟨s', heq, hrest, hch⟩ := represent_eq (s := s.withLive V) (p := p) (hr ▸ hc)
  have hchains : s'.chains = s.chains := by
    funext d
    rw [hch, show (s.withLive V).heap = s.heap from rfl, hr]
    split_ifs with hd
    · obtain ⟨rfl, husr⟩ := hd
      have hmem : d ∈ s.usrChains := (hs.chains.isChain_of_mem hp).resolve_left fun h =>
        isUsrMemChain_iff.1 husr (isSysMemChain_iff.1 h)
      exact if_neg fun h => absurd h.1 (not_lt.2 (hs.cache.le_stamp d hmem p hp))
    · rfl
  rw [heq, hrest, hchains]
  rfl

/-- An access to a page that is not in memory, from the moment a frame is found to the moment the page
    is linked again. -/
private theorem access_eq (hs : s.Rep L) {order : List ℤ} {f : ℕ}
    (heq : s.allocFrame order = .ok (s₁, f, v)) (hfr : Frees s L s₁ L₁ v)
    (hf : s₁.memory.pages[f]? = some none)
    (hn : ∀ r, s.Resident r → (s.heap.page r).address ≠ a) (V : List ℤ) :
    ∃ s₂ p, Loads s₁ a s₂ p ∧ (∀ r, s₁.Resident r → (s₁.heap.page r).address ≠ a) ∧
      (s.withLive V).access order a = ((s₂.install p f).withLive V).relink p >>= fun s₃ =>
        s₃.represent p >>= fun s₄ =>
          pure (s₄, .fault (v.map fun q => (s₄.heap.page q).address)) := by
  have hs₁ := hfr.rep hs
  have hl := load_spec s₁ hs₁.store.swap_eq a
  have hlt : f < (s₁.load a).1.memory.pages.length := by
    rw [hl.memory_eq]
    exact (List.getElem?_eq_some_iff.1 hf).1
  refine ⟨_, _, hl, fun r hr => ?_, ?_⟩
  · rw [hfr.address_eq]
    exact hn r ((hfr.resident_iff hs).1 hr).1
  · have hlookup : (s.withLive V).pageTable.lookup a = -1 := hs.store.lookup_eq_neg_one_iff.2 hn
    rw [access, if_pos hlookup, pageFault, allocFrame_withLive, heq]
    simp only [Except.map, ok_bind, load_withLive]
    rw [show ((s₁.load a).1.withLive V).memory = (s₁.load a).1.memory from rfl]
    simp only [ok_bind, Memory.store_natCast _ _ hlt, bind_assoc, pure_bind]
    have hinst : ∀ s₂ : HierarchicalMemoryManager, ∀ p, { s₂.withLive V with
        heap := (((s₂.withLive V).heap.loadPage p).refPage p).modify p ({ · with frame := (f : ℤ) })
        memory := ⟨s₂.memory.pages.set f (some p), s₂.memory.bitmap.set f (some p).isSome⟩
        pageTable := (s₂.withLive V).pageTable.add
          (((((s₂.withLive V).heap.loadPage p).refPage p).modify p
            ({ · with frame := (f : ℤ) })).page p).address f } =
          (s₂.install p f).withLive V := fun s₂ p => by
      simp [HierarchicalMemoryManager.install, HierarchicalMemoryManager.withLive, Heap.loadPage,
        Heap.refPage, Page.load, Page.ref]
    rw [hinst]

/-- The chain a loaded page is linked to. -/
theorem relinkChain_install (hs : s.Rep L) {s₂ : HierarchicalMemoryManager}
    (hl : Loads s a s₂ p)
    (ha : ∀ q, ((s₂.install p f).heap.page q).assigned = (s.heap.page q).assigned) :
    relinkChain (s₂.install p f) p = s.homeChain a := by
  rw [relinkChain, homeChain, ha]
  rcases hl.page with ⟨h, -⟩ | ⟨h, rfl, -⟩
  · rw [h]
  · rw [h, hs.chains.blank _ le_rfl]
    rfl

/-- An access to a page that is not in memory, assigned to a chain that exists, once a frame is
    found. -/
theorem access_of_frees (hs : s.Rep L) {order : List ℤ} {f : ℕ}
    (heq : s.allocFrame order = .ok (s₁, f, v)) (hfr : Frees s L s₁ L₁ v)
    (hf : s₁.memory.pages[f]? = some none)
    (hn : ∀ r, s.Resident r → (s.heap.page r).address ≠ a) {V : List ℤ}
    (hV : ∀ d ∈ V, d ∈ s.usrChains) (hc : (s.withLive V).IsChain (s.homeChain a)) :
    ∃ s' p, (s.withLive V).access order a =
        .ok (s'.withLive V, .fault (v.map fun q => (s.heap.page q).address)) ∧
      Faults s₁ s' a p ∧
      s'.Rep (Function.update L₁ (s.homeChain a) (p :: L₁ (s.homeChain a))) ∧
      (s.CacheValid L →
        s'.CacheValid (Function.update L₁ (s.homeChain a) (p :: L₁ (s.homeChain a)))) := by
  obtain ⟨s₂, p, hl, hn₁, heq⟩ := hs.access_eq heq hfr hf hn V
  have hs₁ := hfr.rep hs
  obtain ⟨hs₃, hr₃, hp₃, hv₃, ha₃⟩ := hs₁.install hl hn₁ hf
  -- The page is loaded, and linked to the chain it is assigned to.
  have hhome := hfr.homeChain_eq hs hn
  have hchain : relinkChain (s₂.install p f) p = s.homeChain a :=
    (hs₁.relinkChain_install hl ha₃).trans hhome
  have husr : (s₂.install p f).usrChains = s.usrChains := hl.usrChains_eq.trans hfr.usrChains_eq
  have hc₃ : (s₂.install p f).IsChain (s.homeChain a) := by
    rw [IsChain, husr]
    exact hc.imp_right (hV _)
  obtain ⟨s', hlink, hs', hln⟩ := hs₃.link hc₃ hp₃ hr₃
  have hmem : p ∈ Function.update L₁ (s.homeChain a) (p :: L₁ (s.homeChain a)) (s.homeChain a) := by
    simp
  have hrep := hs'.represent_of_mem (V := V) hmem hc
  have hpage : ∀ q, q ≠ p → (s₂.install p f).heap.page q = s₁.heap.page q := fun q hq => by
    rw [install_page_of_ne _ _ _ hq, hl.page_eq q hq]
  have hself := install_page_self s₂ p f
  have hchains₃ : (s₂.install p f).chains = s₁.chains := hl.chains_eq
  -- The page that left memory is not the one that is loaded, and keeps its address.
  have haddr : (v.map fun q => (s'.heap.page q).address) =
      v.map fun q => (s.heap.page q).address := by
    refine Option.map_congr fun q hq => ?_
    rw [hln.address_eq, hpage q (hfr.ne_loaded hs hn (hl.page.imp And.left fun h => ⟨h.1, h.2.1⟩)
      (hfr.victim_resident hs hq)), hfr.address_eq]
  refine ⟨s', p, ?_, ⟨hl.page.imp And.left fun h => ⟨h.1, h.2.1⟩, fun r => ?_,
    fun q hq => ?_, fun q => (hln.assigned_eq q).trans (ha₃ q), fun q => ?_, ?_, ?_, ?_,
    ⟨f, hf, ?_⟩, hln.swap_eq.trans hl.swap_eq, hln.usrChains_eq.trans hl.usrChains_eq,
    hln.chainId_eq.trans hl.chainId_eq, hln.size_eq.trans hl.size_eq⟩, hs', fun hv => ?_⟩
  · have hchain' : relinkChain ((s₂.install p f).withLive V) p = s.homeChain a := hchain
    rw [heq, relink_eq (by rwa [hchain']), hchain', chainLink_withLive, hlink]
    simp only [Except.map, ok_bind, hrep, pure_eq_ok]
    rw [show (s'.withLive V).heap = s'.heap from rfl, haddr]
  · rw [hln.fresh_eq]
    exact hl.lt_fresh_iff r
  · rw [hln.core_eq, hpage q hq]
  · rw [hln.resides_eq, hhome]
    split_ifs with hq
    · rfl
    · rw [hpage q hq]
  · rw [hln.address_eq, hself]
    exact hl.address_eq
  · rw [hln.timestamp_eq, hself, hl.clock_eq]
  · rw [hln.clock_eq, install_clock, hl.clock_eq]
  · rw [hln.memory_eq, HierarchicalMemoryManager.install, hl.memory_eq]
  · -- No cached timestamp is as great as that of the page, which is new.
    refine (hs₃.cacheValid_link hln (hv₃ (hfr.valid hv))).2 ?_
    rintro ⟨hid, -, x, -, -, hle⟩
    rw [hself, hl.clock_eq, hchains₃] at hle
    have := hs₁.cache.le_clock _ (hl.usrChains_eq ▸ hid)
    simp only at hle
    omega

/-- An access to a page that is not in memory, assigned to a chain that does not exist, once a frame
    is found. -/
theorem access_error_of_frees (hs : s.Rep L) {order : List ℤ} {f : ℕ}
    (heq : s.allocFrame order = .ok (s₁, f, v)) (hfr : Frees s L s₁ L₁ v)
    (hf : s₁.memory.pages[f]? = some none)
    (hn : ∀ r, s.Resident r → (s.heap.page r).address ≠ a) {V : List ℤ}
    (hc : ¬(s.withLive V).IsChain (s.homeChain a)) :
    (s.withLive V).access order a = .error .nullPointer := by
  obtain ⟨s₂, p, hl, hn₁, heq⟩ := hs.access_eq heq hfr hf hn V
  have hs₁ := hfr.rep hs
  obtain ⟨-, -, -, -, ha₃⟩ := hs₁.install hl hn₁ hf
  have hchain : relinkChain (s₂.install p f) p = s.homeChain a :=
    (hs₁.relinkChain_install hl ha₃).trans (hfr.homeChain_eq hs hn)
  rw [heq, relink_error]
  · rfl
  · exact fun h => hc (hchain ▸ h)

/-- An access to a page that is not in memory, assigned to a chain that exists. -/
theorem access_fault (hs : s.Rep L) (hset : s.Settled) (hsize : 0 < s.size) {order : List ℤ}
    (ho : ∀ d, d ∈ order ↔ d ∈ s.usrChains)
    (hn : ∀ r, s.Resident r → (s.heap.page r).address ≠ a) (hc : s.IsChain (s.homeChain a)) :
    ∃ s' s₁ L₁ v p, s.access order a =
        .ok (s', .fault (v.map fun q => (s.heap.page q).address)) ∧
      Allocs s L s₁ L₁ v ∧ Faults s₁ s' a p ∧
      s'.Rep (Function.update L₁ (s.homeChain a) (p :: L₁ (s.homeChain a))) ∧
      (s.CacheValid L →
        s'.CacheValid (Function.update L₁ (s.homeChain a) (p :: L₁ (s.homeChain a)))) := by
  obtain ⟨s₁, L₁, v, f, halloc, hal, hf⟩ := hs.allocFrame hset hsize ho
  obtain ⟨s', p, heq, hfault, hs', hv⟩ :=
    hs.access_of_frees halloc hal.frees hf hn (V := s.usrChains) (fun _ => id) hc
  have hlive : s'.withLive s.usrChains = s' := by
    rw [← hal.frees.usrChains_eq, ← hfault.usrChains_eq, withLive_self]
  rw [hlive] at heq
  exact ⟨s', s₁, L₁, v, p, heq, hal, hfault, hs', hv⟩

/-- An access to a page that is not in memory, assigned to a chain that does not exist. -/
theorem access_error (hs : s.Rep L) (hset : s.Settled) (hsize : 0 < s.size) {order : List ℤ}
    (ho : ∀ d, d ∈ order ↔ d ∈ s.usrChains)
    (hn : ∀ r, s.Resident r → (s.heap.page r).address ≠ a) (hc : ¬s.IsChain (s.homeChain a)) :
    s.access order a = .error .nullPointer := by
  obtain ⟨s₁, L₁, v, f, halloc, hal, hf⟩ := hs.allocFrame hset hsize ho
  exact hs.access_error_of_frees halloc hal.frees hf hn (V := s.usrChains) hc

/-- A manager without frames has no page to evict. -/
theorem access_of_size_eq_zero (hs : s.Rep L) (hsize : s.size = 0) (order : List ℤ) (a : ℤ) :
    s.access order a = .error .nullPointer := by
  have hpages : s.memory.pages = [] := List.eq_nil_of_length_eq_zero (hs.store.length_eq.trans hsize)
  have hres : ∀ r, ¬s.Resident r := fun r hr => by
    rw [Resident, hpages] at hr
    cases hr
  have hnil : ∀ d, L d = [] := fun d => List.eq_nil_iff_forall_not_mem.2 fun r hr =>
    hres r (hs.mem_resident hr)
  have hfree : s.memory.freeFrame = -1 :=
    Memory.freeFrame_of_full hs.store.bitmap_eq (by simp [hpages])
  rw [access, if_pos (hs.store.lookup_eq_neg_one_iff.2 fun r hr => absurd hr (hres r)), pageFault,
    HierarchicalMemoryManager.allocFrame, if_pos hfree, HierarchicalMemoryManager.evict,
    hs.selectVictim_of_nil hnil]
  rfl

end Rep

end HierarchicalMemoryManager

end Mcpq.Hierarchical
