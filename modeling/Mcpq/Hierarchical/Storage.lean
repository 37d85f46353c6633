import Mcpq.Hierarchical.Chains
import Mathlib.Data.List.ReduceOption

/-!
# The storage of the manager

The invariant of the frames, the page table, the swap space and the clock of a manager
(`StoreOk`): the page table is the inverse of the addresses of the pages in memory, a page that is
not in memory is in the swap space, pages have distinct addresses, and distinct timestamps which
are not above the clock.

* `StoreOk.moves`: it does not depend on the chains;
* `StoreOk.touch`: a page gets the timestamp of a later clock;
* `StoreOk.remove`, `StoreOk.install`: a page leaves its frame, or gets one.
-/

namespace Mcpq.Hierarchical

namespace HierarchicalMemoryManager

/-- The page is in memory. -/
def Resident (s : HierarchicalMemoryManager) (r : PageRef) : Prop := some r ∈ s.memory.pages

/-- A resident page has a frame. -/
theorem resident_iff {s : HierarchicalMemoryManager} {r : PageRef} :
    s.Resident r ↔ ∃ f : ℕ, s.memory.pages[f]? = some (some r) :=
  List.mem_iff_getElem?

/-- The pages in memory, in the order of their frames. -/
def residents (s : HierarchicalMemoryManager) : List PageRef := s.memory.pages.reduceOption

/-- The invariant of the storage. -/
structure StoreOk (s : HierarchicalMemoryManager) : Prop where
  length_eq : s.memory.pages.length = s.size
  bitmap_eq : s.memory.bitmap = s.memory.pages.map Option.isSome
  frame_eq : ∀ (f : ℕ) r, s.memory.pages[f]? = some (some r) →
    (s.heap.page r).frame = f ∧ r < s.heap.fresh
  mapping_iff : ∀ a (f : ℤ), s.pageTable.mapping a = some f ↔
    ∃ (i : ℕ) (r : PageRef), f = i ∧ s.memory.pages[i]? = some (some r) ∧
      (s.heap.page r).address = a
  swap_eq : ∀ a r, s.swap a = some r → r < s.heap.fresh ∧ (s.heap.page r).address = a
  home : ∀ r < s.heap.fresh, s.Resident r ∨ s.swap (s.heap.page r).address = some r
  address_inj : ∀ r < s.heap.fresh, ∀ q < s.heap.fresh,
    (s.heap.page r).address = (s.heap.page q).address → r = q
  stamp_pos : ∀ r < s.heap.fresh, 0 < (s.heap.page r).timestamp
  stamp_le : ∀ r < s.heap.fresh, (s.heap.page r).timestamp ≤ s.heap.clock.current
  stamp_inj : ∀ r < s.heap.fresh, ∀ q < s.heap.fresh,
    (s.heap.page r).timestamp = (s.heap.page q).timestamp → r = q

/-- The page `p` of `s'` is the page of the address `a`, taken from the swap space of `s` or new. -/
structure Loads (s : HierarchicalMemoryManager) (a : ℤ) (s' : HierarchicalMemoryManager)
    (p : PageRef) : Prop where
  rest : s' = { s with heap := s'.heap }
  address_eq : (s'.heap.page p).address = a
  lt_fresh_iff : ∀ r, r < s'.heap.fresh ↔ r = p ∨ r < s.heap.fresh
  page_eq : ∀ q, q ≠ p → s'.heap.page q = s.heap.page q
  clock_eq : s'.heap.clock = s.heap.clock
  links_eq : s'.heap.links = s.heap.links
  page : s.swap a = some p ∧ s'.heap = s.heap ∨
    s.swap a = none ∧ p = s.heap.fresh ∧ s'.heap.page p = { address := a }

/-- The page `p` is loaded and stored to the frame `f`. -/
def install (s : HierarchicalMemoryManager) (p : PageRef) (f : ℕ) : HierarchicalMemoryManager :=
  { s with
    heap := ((s.heap.loadPage p).refPage p).modify p ({ · with frame := f })
    memory := ⟨s.memory.pages.set f (some p), s.memory.bitmap.set f true⟩
    pageTable := s.pageTable.add (s.heap.page p).address f }

/-- The page `p` leaves the frame `f`. -/
def remove (s : HierarchicalMemoryManager) (p : PageRef) (f : ℕ) : HierarchicalMemoryManager :=
  { s with
    memory := ⟨s.memory.pages.set f none, s.memory.bitmap.set f false⟩
    pageTable := s.pageTable.remove (s.heap.page p).address
    swap := Function.update s.swap (s.heap.page p).address (some p) }

section

variable (s : HierarchicalMemoryManager) (p : PageRef) (f : ℕ)

/-- The other pages are not written. -/
theorem install_page_of_ne {q : PageRef} (hq : q ≠ p) :
    (s.install p f).heap.page q = s.heap.page q := by
  simp [install, Heap.refPage, Heap.loadPage, Heap.modify_page_of_ne _ _ hq]

/-- What the load leaves of the page. -/
theorem install_page_self : (s.install p f).heap.page p =
    { s.heap.page p with
      miss := (s.heap.page p).miss + 1
      hit := (s.heap.page p).hit + 1
      timestamp := s.heap.clock.current + 2
      refrenced := true
      frame := f } := by
  simp [install, Heap.refPage, Heap.loadPage, Page.load, Page.ref]

@[simp] theorem install_clock :
    (s.install p f).heap.clock.current = s.heap.clock.current + 2 := rfl

@[simp] theorem install_fresh : (s.install p f).heap.fresh = s.heap.fresh := rfl

/-- The page is taken from swap, or is new. -/
theorem load_spec (hswap : ∀ a r, s.swap a = some r → r < s.heap.fresh ∧
    (s.heap.page r).address = a) (a : ℤ) : Loads s a (s.load a).1 (s.load a).2 := by
  rw [load]
  split
  · rename_i p hp
    obtain ⟨hlt, ha⟩ := hswap a p hp
    refine ⟨rfl, ha, fun r => ⟨Or.inr, ?_⟩, fun _ _ => rfl, rfl, rfl, .inl ⟨hp, rfl⟩⟩
    rintro (rfl | hr)
    · exact hlt
    · exact hr
  · rename_i hp
    refine ⟨rfl, ?_, fun r => ?_, fun q hq => ?_, rfl, rfl, .inr ⟨hp, rfl, ?_⟩⟩
    · simp [Heap.newPage]
    · exact Nat.lt_succ_iff_lt_or_eq.trans or_comm
    · exact Function.update_of_ne hq _ _
    · simp [Heap.newPage]

end

namespace Loads

variable {s s' : HierarchicalMemoryManager} {a : ℤ} {p : PageRef} (h : Loads s a s' p)
include h

theorem memory_eq : s'.memory = s.memory := by rw [h.rest]
theorem pageTable_eq : s'.pageTable = s.pageTable := by rw [h.rest]
theorem swap_eq : s'.swap = s.swap := by rw [h.rest]
theorem chains_eq : s'.chains = s.chains := by rw [h.rest]
theorem usrChains_eq : s'.usrChains = s.usrChains := by rw [h.rest]
theorem chainId_eq : s'.chainId = s.chainId := by rw [h.rest]
theorem size_eq : s'.size = s.size := by rw [h.rest]

end Loads

/-- One frame is written. -/
theorem getElem?_set_some {l : List (Option PageRef)} {f i : ℕ} {r : PageRef}
    (hf : f < l.length) (v : Option PageRef) :
    (l.set f v)[i]? = some (some r) ↔ i = f ∧ v = some r ∨ i ≠ f ∧ l[i]? = some (some r) := by
  by_cases hi : i = f
  · subst hi
    simp [hf]
  · simp [List.getElem?_set_ne (Ne.symm hi), hi]

namespace StoreOk

variable {s s' : HierarchicalMemoryManager} {a : ℤ} {p r : PageRef} {f : ℕ}

/-- A resident page exists. -/
theorem lt_fresh (hs : s.StoreOk) (hr : s.Resident r) : r < s.heap.fresh := by
  obtain ⟨f, hf⟩ := resident_iff.1 hr
  exact (hs.frame_eq f r hf).2

/-- The frame of a page in memory. -/
theorem getElem?_frame (hs : s.StoreOk) (hr : s.Resident r) :
    ∃ f : ℕ, (s.heap.page r).frame = f ∧ s.memory.pages[f]? = some (some r) := by
  obtain ⟨f, hf⟩ := resident_iff.1 hr
  exact ⟨f, (hs.frame_eq f r hf).1, hf⟩

/-- A page is in one frame only. -/
theorem frame_inj (hs : s.StoreOk) {i j : ℕ} (hi : s.memory.pages[i]? = some (some r))
    (hj : s.memory.pages[j]? = some (some r)) : i = j :=
  Int.ofNat_inj.1 ((hs.frame_eq i r hi).1.symm.trans (hs.frame_eq j r hj).1)

/-- The page table has the frame of a resident page. -/
theorem lookup_of_getElem? (hs : s.StoreOk) (hr : s.memory.pages[f]? = some (some r)) :
    s.pageTable.lookup (s.heap.page r).address = f := by
  rw [PageTable.lookup, (hs.mapping_iff _ f).2 ⟨f, r, rfl, hr, rfl⟩]
  rfl

/-- An address without a mapping is not resident. -/
theorem mapping_eq_none_iff (hs : s.StoreOk) :
    s.pageTable.mapping a = none ↔ ∀ r, s.Resident r → (s.heap.page r).address ≠ a := by
  constructor
  · intro hn r hr ha
    obtain ⟨f, hf⟩ := resident_iff.1 hr
    rw [(hs.mapping_iff a f).2 ⟨f, r, rfl, hf, ha⟩] at hn
    cases hn
  · intro h
    refine Option.eq_none_iff_forall_ne_some.2 fun f hf => ?_
    obtain ⟨i, r, -, hi, ha⟩ := (hs.mapping_iff a f).1 hf
    exact h r (resident_iff.2 ⟨i, hi⟩) ha

/-- The page table gives `-1` for the addresses whose page is not in memory. -/
theorem lookup_eq_neg_one_iff (hs : s.StoreOk) :
    s.pageTable.lookup a = -1 ↔ ∀ r, s.Resident r → (s.heap.page r).address ≠ a := by
  rw [← hs.mapping_eq_none_iff, PageTable.lookup]
  cases hm : s.pageTable.mapping a with
  | none => simp
  | some f =>
    obtain ⟨i, -, rfl, -⟩ := (hs.mapping_iff a f).1 hm
    simp only [Option.getD_some, reduceCtorEq]

/-- The frame of a resident page is read. -/
theorem load_frame (hs : s.StoreOk) (hr : s.memory.pages[f]? = some (some r)) :
    s.memory.load f = .ok (some r) :=
  Memory.load_natCast hs.bitmap_eq hr

/-- A resident page is found by its address. -/
theorem pageAt_of_resident (hs : s.StoreOk) (hr : s.Resident r) :
    s.pageAt (s.heap.page r).address = .ok r := by
  obtain ⟨f, hf⟩ := resident_iff.1 hr
  rw [pageAt, hs.lookup_of_getElem? hf, hs.load_frame hf]
  rfl

theorem mem_residents : r ∈ s.residents ↔ s.Resident r := List.reduceOption_mem_iff

/-- No page has two frames. -/
theorem nodup_residents (hs : s.StoreOk) : s.residents.Nodup := by
  rw [residents, List.reduceOption, List.Nodup, List.pairwise_filterMap, List.pairwise_iff_getElem]
  rintro i j hi hj hij p hp q hq rfl
  have hi' : s.memory.pages[i]? = some (some p) := by rw [List.getElem?_eq_getElem hi]; exact congrArg _ hp
  have hj' : s.memory.pages[j]? = some (some p) := by rw [List.getElem?_eq_getElem hj]; exact congrArg _ hq
  exact hij.ne (hs.frame_inj hi' hj')

/-- Memory is full when it holds as many pages as it has frames. -/
theorem length_residents_lt_iff (hs : s.StoreOk) :
    s.residents.length < s.size ↔ none ∈ s.memory.pages := by
  rw [← hs.length_eq, residents, List.reduceOption_length_lt_iff]

/-- There are no more resident pages than frames. -/
theorem length_residents_le (hs : s.StoreOk) : s.residents.length ≤ s.size :=
  hs.length_eq ▸ List.reduceOption_length_le _

/-- `pageAt` fails for the addresses whose page is not in memory. -/
theorem pageAt_eq_ok_iff (hs : s.StoreOk) :
    s.pageAt a = .ok r ↔ s.Resident r ∧ (s.heap.page r).address = a := by
  constructor
  · intro h
    by_cases ha : s.pageTable.lookup a = -1
    · rw [pageAt, ha] at h
      cases h
    · rw [hs.lookup_eq_neg_one_iff] at ha
      push Not at ha
      obtain ⟨q, hq, rfl⟩ := ha
      rw [hs.pageAt_of_resident hq] at h
      cases h
      exact ⟨hq, rfl⟩
  · rintro ⟨hr, rfl⟩
    exact hs.pageAt_of_resident hr

/-- A page that is not in memory is in the swap space. -/
theorem swap_of_not_resident (hs : s.StoreOk) (hr : r < s.heap.fresh) (hn : ¬s.Resident r) :
    s.swap (s.heap.page r).address = some r :=
  (hs.home r hr).resolve_left hn

/-- A new manager has no page in memory. -/
theorem make (n : ℕ) (clock : LogicalClock) (draws : ℕ → ℕ) :
    (HierarchicalMemoryManager.make n clock draws).StoreOk := by
  have hnone : ∀ (i : ℕ) r, (Memory.empty n).pages[i]? ≠ some (some r) := fun i r h =>
    absurd (List.eq_of_mem_replicate (List.mem_of_getElem? h)) (by simp)
  refine ⟨List.length_replicate, ?_, fun f r h => absurd h (hnone f r), fun a f => ?_, ?_, ?_, ?_,
    ?_, ?_, ?_⟩
  · simp [HierarchicalMemoryManager.make, Memory.empty]
  · exact ⟨fun h => absurd h (by simp [HierarchicalMemoryManager.make]),
      fun ⟨i, r, _, h, _⟩ => absurd h (hnone i r)⟩
  all_goals simp [HierarchicalMemoryManager.make]

/-- A page in use gets the timestamp of a later clock. -/
theorem touch (hs : s.StoreOk) (hrest : s' = { s with heap := s'.heap, chains := s'.chains })
    (hfresh : s'.heap.fresh = s.heap.fresh)
    (haddr : ∀ q, (s'.heap.page q).address = (s.heap.page q).address)
    (hframe : ∀ q, (s'.heap.page q).frame = (s.heap.page q).frame)
    (hstamp : ∀ q, q ≠ p → (s'.heap.page q).timestamp = (s.heap.page q).timestamp)
    (hlt : s.heap.clock.current < (s'.heap.page p).timestamp)
    (hle : (s'.heap.page p).timestamp ≤ s'.heap.clock.current) : s'.StoreOk := by
  have hle' : ∀ r < s.heap.fresh, (s'.heap.page r).timestamp ≤ s'.heap.clock.current := by
    intro r hr
    by_cases hrp : r = p
    · exact hrp ▸ hle
    · rw [hstamp r hrp]
      exact (hs.stamp_le r hr).trans (hlt.le.trans hle)
  -- The page `p` is ahead of the others.
  have hahead : ∀ r < s.heap.fresh, r ≠ p → (s'.heap.page r).timestamp < (s'.heap.page p).timestamp :=
    fun r hr hrp => by
      rw [hstamp r hrp]
      exact (hs.stamp_le r hr).trans_lt hlt
  have hmem : s'.memory = s.memory := by rw [hrest]
  have hpt : s'.pageTable = s.pageTable := by rw [hrest]
  have hsw : s'.swap = s.swap := by rw [hrest]
  have hsize : s'.size = s.size := by rw [hrest]
  refine ⟨?_, ?_, ?_, ?_, ?_, ?_, ?_, ?_, ?_, ?_⟩
  · rw [hmem, hsize, hs.length_eq]
  · rw [hmem, hs.bitmap_eq]
  · simpa only [hmem, hframe, hfresh] using hs.frame_eq
  · simpa only [hmem, hpt, haddr] using hs.mapping_iff
  · simpa only [hsw, haddr, hfresh] using hs.swap_eq
  · simpa only [hsw, haddr, hfresh, Resident, hmem] using hs.home
  · simpa only [haddr, hfresh] using hs.address_inj
  · intro r hr
    rw [hfresh] at hr
    by_cases hrp : r = p
    · exact hrp ▸ (Nat.zero_le _).trans_lt hlt
    · rw [hstamp r hrp]
      exact hs.stamp_pos r hr
  · simpa only [hfresh] using hle'
  · intro r hr q hq heq
    rw [hfresh] at hr hq
    by_cases hrp : r = p
    · by_cases hqp : q = p
      · rw [hrp, hqp]
      · exact absurd (hrp ▸ heq.symm) (hahead q hq hqp).ne
    · by_cases hqp : q = p
      · exact absurd (hqp ▸ heq) (hahead r hr hrp).ne
      · rw [hstamp r hrp, hstamp q hqp] at heq
        exact hs.stamp_inj r hr q hq heq

/-- The store does not depend on the chains. -/
theorem moves (hs : s.StoreOk) (hm : Moves s s') : s'.StoreOk := by
  obtain ⟨h₁, h₂, h₃, h₄, h₅, h₆, h₇, h₈, h₉, h₁₀⟩ := hs
  refine ⟨?_, ?_, ?_, ?_, ?_, ?_, ?_, ?_, ?_, ?_⟩
  all_goals
    simpa only [Resident, hm.memory_eq, hm.size_eq, hm.frame_eq, hm.fresh_eq, hm.pageTable_eq,
      hm.address_eq, hm.swap_eq, hm.timestamp_eq, hm.clock_eq]

/-- A page leaves its frame: the others are still in memory. -/
theorem resident_remove (hs : s.StoreOk) (hf : s.memory.pages[f]? = some (some p)) (r : PageRef) :
    (s.remove p f).Resident r ↔ s.Resident r ∧ r ≠ p := by
  have hlt : f < s.memory.pages.length := (List.getElem?_eq_some_iff.1 hf).1
  rw [resident_iff, resident_iff]
  simp only [HierarchicalMemoryManager.remove, getElem?_set_some hlt, reduceCtorEq, and_false,
    false_or]
  constructor
  · rintro ⟨i, hif, hi⟩
    refine ⟨⟨i, hi⟩, ?_⟩
    rintro rfl
    exact hif (hs.frame_inj hi hf)
  · rintro ⟨⟨i, hi⟩, hrp⟩
    refine ⟨i, ?_, hi⟩
    rintro rfl
    rw [hf] at hi
    cases hi
    exact hrp rfl

/-- The invariant after a page has left its frame. -/
theorem remove (hs : s.StoreOk) (hf : s.memory.pages[f]? = some (some p)) :
    (s.remove p f).StoreOk := by
  have hlt : f < s.memory.pages.length := (List.getElem?_eq_some_iff.1 hf).1
  have hp := (hs.frame_eq f p hf).2
  have hget : ∀ (i : ℕ) r, (s.memory.pages.set f none)[i]? = some (some r) ↔
      i ≠ f ∧ s.memory.pages[i]? = some (some r) := fun i r => by
    simp [getElem?_set_some hlt]
  refine ⟨?_, ?_, fun i r hi => ?_, fun a i => ?_, fun a r hr => ?_, fun r hr => ?_,
    hs.address_inj, hs.stamp_pos, hs.stamp_le, hs.stamp_inj⟩
  · simpa [HierarchicalMemoryManager.remove] using hs.length_eq
  · simp [HierarchicalMemoryManager.remove, hs.bitmap_eq, List.map_set]
  · exact hs.frame_eq i r ((hget i r).1 hi).2
  · simp only [HierarchicalMemoryManager.remove, PageTable.remove, hget, Function.update_apply]
    split_ifs with ha
    · constructor
      · intro h
        cases h
      rintro ⟨j, r, -, ⟨hj, hr⟩, har⟩
      have hrp : r = p := hs.address_inj r (hs.frame_eq j r hr).2 p hp (har.trans ha)
      exact absurd (hs.frame_inj (hrp ▸ hr) hf) hj
    · rw [hs.mapping_iff]
      constructor
      · rintro ⟨j, r, hij, hr, har⟩
        refine ⟨j, r, hij, ⟨fun hjf => ha ?_, hr⟩, har⟩
        rw [hjf, hf] at hr
        cases hr
        exact har.symm
      · rintro ⟨j, r, hij, ⟨-, hr⟩, har⟩
        exact ⟨j, r, hij, hr, har⟩
  · simp only [HierarchicalMemoryManager.remove, Function.update_apply] at hr ⊢
    split_ifs at hr with ha
    · cases hr
      exact ⟨hp, ha.symm⟩
    · exact hs.swap_eq a r hr
  · simp only [HierarchicalMemoryManager.remove, Resident, Function.update_apply] at hr ⊢
    by_cases hrp : r = p
    · right
      rw [hrp, if_pos rfl]
    · have ha : (s.heap.page r).address ≠ (s.heap.page p).address :=
        fun h => hrp (hs.address_inj r hr p hp h)
      rw [if_neg ha]
      exact (hs.home r hr).imp_left fun h => (hs.resident_remove hf r).2 ⟨h, hrp⟩

/-- What the frames hold once a page has been loaded. -/
theorem getElem?_install (hl : Loads s a s' p) (hf : s.memory.pages[f]? = some none) (i : ℕ)
    (r : PageRef) : (s'.install p f).memory.pages[i]? = some (some r) ↔
      i = f ∧ r = p ∨ i ≠ f ∧ s.memory.pages[i]? = some (some r) := by
  have hlt : f < s.memory.pages.length := (List.getElem?_eq_some_iff.1 hf).1
  simp only [HierarchicalMemoryManager.install, hl.memory_eq, getElem?_set_some hlt,
    Option.some.injEq, eq_comm]

/-- The other pages are not written. -/
theorem install_page_eq (hl : Loads s a s' p) {q : PageRef} (hq : q ≠ p) :
    (s'.install p f).heap.page q = s.heap.page q := by
  rw [install_page_of_ne _ _ _ hq, hl.page_eq q hq]

/-- The page has the address of the access. -/
theorem install_address (hl : Loads s a s' p) : ((s'.install p f).heap.page p).address = a := by
  rw [install_page_self]
  exact hl.address_eq

/-- The page is stamped twice. -/
theorem install_timestamp (hl : Loads s a s' p) :
    ((s'.install p f).heap.page p).timestamp = s.heap.clock.current + 2 := by
  rw [install_page_self, hl.clock_eq]

/-- The page of an address that is not in memory is not in a frame. -/
theorem ne_of_frame (hs : s.StoreOk) (hl : Loads s a s' p)
    (hn : ∀ r, s.Resident r → (s.heap.page r).address ≠ a) {i : ℕ}
    (hi : s.memory.pages[i]? = some (some r)) : r ≠ p := by
  rintro rfl
  rcases hl.page with ⟨h, -⟩ | ⟨-, h, -⟩
  · exact hn r (resident_iff.2 ⟨i, hi⟩) (hs.swap_eq a r h).2
  · exact absurd (hs.frame_eq i r hi).2 (h ▸ lt_irrefl _)

/-- The other pages have another address. -/
theorem address_ne (hs : s.StoreOk) (hl : Loads s a s' p)
    (hn : ∀ r, s.Resident r → (s.heap.page r).address ≠ a) (hr : r < s.heap.fresh) (hrp : r ≠ p) :
    (s.heap.page r).address ≠ a := by
  rintro rfl
  rcases hs.home r hr with h | h
  · exact hn r h rfl
  · rcases hl.page with ⟨h', -⟩ | ⟨h', -⟩
    · exact hrp (Option.some.inj (h.symm.trans h'))
    · exact absurd (h.symm.trans h') (by simp)

/-- The only new page is the one that is loaded. -/
theorem eq_or_lt_fresh (hl : Loads s a s' p) (hr : r < (s'.install p f).heap.fresh) :
    r = p ∨ r ≠ p ∧ r < s.heap.fresh := by
  rcases eq_or_ne r p with hrp | hrp
  · exact .inl hrp
  · exact .inr ⟨hrp, ((hl.lt_fresh_iff r).1 hr).resolve_left hrp⟩

/-- What tells the pages apart still does if it tells the page that is loaded from the others. -/
theorem install_inj {β : Type*} {g : Page → β} (hl : Loads s a s' p)
    (hinj : ∀ r < s.heap.fresh, ∀ q < s.heap.fresh, g (s.heap.page r) = g (s.heap.page q) → r = q)
    (hg : ∀ r < s.heap.fresh, r ≠ p → g (s.heap.page r) ≠ g ((s'.install p f).heap.page p)) :
    ∀ r < (s'.install p f).heap.fresh, ∀ q < (s'.install p f).heap.fresh,
      g ((s'.install p f).heap.page r) = g ((s'.install p f).heap.page q) → r = q := by
  intro r hr q hq he
  rcases eq_or_lt_fresh hl hr with rfl | ⟨hrp, hr'⟩
  · rcases eq_or_lt_fresh hl hq with rfl | ⟨hqp, hq'⟩
    · rfl
    · rw [install_page_eq hl hqp] at he
      exact absurd he.symm (hg q hq' hqp)
  · rw [install_page_eq hl hrp] at he
    rcases eq_or_lt_fresh hl hq with rfl | ⟨hqp, hq'⟩
    · exact absurd he (hg r hr' hrp)
    · rw [install_page_eq hl hqp] at he
      exact hinj r hr' q hq' he

/-- The page table after a page has been loaded. -/
theorem install_mapping_iff (hs : s.StoreOk) (hl : Loads s a s' p)
    (hn : ∀ r, s.Resident r → (s.heap.page r).address ≠ a)
    (hf : s.memory.pages[f]? = some none) (b i : ℤ) :
    (s'.install p f).pageTable.mapping b = some i ↔ ∃ (j : ℕ) (r : PageRef), i = j ∧
      (s'.install p f).memory.pages[j]? = some (some r) ∧
      ((s'.install p f).heap.page r).address = b := by
  have hget := getElem?_install hl hf
  have hmap : (s'.install p f).pageTable.mapping b =
      if b = a then some (f : ℤ) else s.pageTable.mapping b := by
    simp only [HierarchicalMemoryManager.install, PageTable.add, hl.address_eq, hl.pageTable_eq,
      Function.update_apply]
  rw [hmap]
  split_ifs with hb
  · constructor
    · intro h
      cases h
      exact ⟨f, p, rfl, (hget f p).2 (.inl ⟨rfl, rfl⟩), (install_address hl).trans hb.symm⟩
    · rintro ⟨j, r, rfl, hj, hr⟩
      rcases (hget j r).1 hj with ⟨rfl, -⟩ | ⟨-, h⟩
      · rfl
      · rw [install_page_eq hl (hs.ne_of_frame hl hn h)] at hr
        exact absurd (hr.trans hb) (hn r (resident_iff.2 ⟨j, h⟩))
  · rw [hs.mapping_iff]
    constructor
    · rintro ⟨j, r, hij, hj, hr⟩
      have hjf : j ≠ f := by
        rintro rfl
        rw [hf] at hj
        cases hj
      exact ⟨j, r, hij, (hget j r).2 (.inr ⟨hjf, hj⟩), by
        rw [install_page_eq hl (hs.ne_of_frame hl hn hj), hr]⟩
    · rintro ⟨j, r, hij, hj, hr⟩
      rcases (hget j r).1 hj with ⟨-, rfl⟩ | ⟨-, h⟩
      · exact absurd (hr.symm.trans (install_address hl)) hb
      · rw [install_page_eq hl (hs.ne_of_frame hl hn h)] at hr
        exact ⟨j, r, hij, h, hr⟩

/-- The invariant after a page has been loaded. -/
theorem install (hs : s.StoreOk) (hl : Loads s a s' p)
    (hn : ∀ r, s.Resident r → (s.heap.page r).address ≠ a)
    (hf : s.memory.pages[f]? = some none) : (s'.install p f).StoreOk := by
  have hget := getElem?_install hl hf
  refine ⟨?_, ?_, fun i r hi => ?_, hs.install_mapping_iff hl hn hf, fun b r hr => ?_, fun r hr => ?_,
    install_inj hl hs.address_inj fun r hr hrp => ?_, fun r hr => ?_, fun r hr => ?_,
    install_inj hl hs.stamp_inj fun r hr _ => ?_⟩
  · simpa [HierarchicalMemoryManager.install, hl.memory_eq, hl.size_eq] using hs.length_eq
  · simp [HierarchicalMemoryManager.install, hl.memory_eq, hs.bitmap_eq, List.map_set]
  · rcases (hget i r).1 hi with ⟨rfl, rfl⟩ | ⟨-, h⟩
    · rw [install_page_self]
      exact ⟨rfl, (hl.lt_fresh_iff r).2 (.inl rfl)⟩
    · rw [install_page_eq hl (hs.ne_of_frame hl hn h)]
      obtain ⟨h₁, h₂⟩ := hs.frame_eq i r h
      exact ⟨h₁, (hl.lt_fresh_iff r).2 (.inr h₂)⟩
  · -- The swap space is left alone, and the page may come from it.
    simp only [HierarchicalMemoryManager.install, hl.swap_eq] at hr
    obtain ⟨h₁, h₂⟩ := hs.swap_eq b r hr
    refine ⟨(hl.lt_fresh_iff r).2 (.inr h₁), ?_⟩
    rcases eq_or_ne r p with rfl | hrp
    · rcases hl.page with ⟨-, hheap⟩ | ⟨-, h, -⟩
      · rw [install_page_self, hheap]
        exact h₂
      · exact absurd h₁ (h ▸ lt_irrefl _)
    · rw [install_page_eq hl hrp]
      exact h₂
  · rcases eq_or_lt_fresh hl hr with rfl | ⟨hrp, hr'⟩
    · exact .inl (resident_iff.2 ⟨f, (hget f r).2 (.inl ⟨rfl, rfl⟩)⟩)
    · rw [install_page_eq hl hrp]
      simp only [HierarchicalMemoryManager.install, hl.swap_eq]
      refine (hs.home r hr').imp_left fun h => ?_
      obtain ⟨i, hi⟩ := resident_iff.1 h
      have hif : i ≠ f := by
        rintro rfl
        rw [hf] at hi
        cases hi
      exact resident_iff.2 ⟨i, (hget i r).2 (.inr ⟨hif, hi⟩)⟩
  · rw [install_address hl]
    exact hs.address_ne hl hn hr hrp
  · rcases eq_or_lt_fresh hl hr with rfl | ⟨hrp, hr'⟩
    · rw [install_timestamp hl]
      exact Nat.succ_pos _
    · rw [install_page_eq hl hrp]
      exact hs.stamp_pos r hr'
  · rw [install_clock, hl.clock_eq]
    rcases eq_or_lt_fresh hl hr with rfl | ⟨hrp, hr'⟩
    · rw [install_timestamp hl]
    · rw [install_page_eq hl hrp]
      exact (hs.stamp_le r hr').trans (Nat.le_add_right _ _)
  · -- The clock has advanced since the other pages were accessed.
    rw [install_timestamp hl]
    exact (Nat.lt_add_right 1 (Nat.lt_succ_of_le (hs.stamp_le r hr))).ne

end StoreOk

/-- The timestamp of the page in memory of an address. -/
def stampAt (s : HierarchicalMemoryManager) (a : ℤ) : ℕ :=
  match s.pageAt a with
  | .ok r => (s.heap.page r).timestamp
  | .error _ => 0

variable {s s' : HierarchicalMemoryManager} {r : PageRef}

/-- The stamp of an address is the one of its resident page. -/
theorem StoreOk.stampAt_eq (hs : s.StoreOk) (hr : s.Resident r) :
    s.stampAt (s.heap.page r).address = (s.heap.page r).timestamp := by
  rw [stampAt, hs.pageAt_of_resident hr]

/-- Two pages in memory with distinct addresses are distinct. -/
theorem stampAt_of_ne (hs : s.StoreOk) (hs' : s'.StoreOk) (hr : s.Resident r)
    (hr' : s'.Resident r) (haddr : (s'.heap.page r).address = (s.heap.page r).address)
    (hstamp : (s'.heap.page r).timestamp = (s.heap.page r).timestamp) :
    s'.stampAt (s.heap.page r).address = s.stampAt (s.heap.page r).address := by
  rw [hs.stampAt_eq hr, ← hstamp, ← hs'.stampAt_eq hr', haddr]

end HierarchicalMemoryManager

end Mcpq.Hierarchical
