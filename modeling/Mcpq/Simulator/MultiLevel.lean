import Mcpq.Simulator.ChainSpec
import Mcpq.Simulator.ChainedLru

/-!
# The multi-level memory manager

The class `MultiLevelMemoryManager`: a memory manager whose pages are all on chains, a default chain
to begin with, and which evicts a page of the chain of least timestamp. It uses the chains of the
chained LRU policy, but chooses the chain itself.

Without a call of `love` or `hate` it is LRU (`multiLevel_outcomes`): all the pages in memory are on
the default chain, and no other page is (`OnlyChain`).
-/

namespace Mcpq.Simulator

/-- A manager with a default chain for the pages that are not loved. -/
structure MultiLevelMemoryManager where
  /-- The superclass. -/
  base : MemoryManager ChainedLeastRecentlyUsed
  /-- The identifier of the default chain. -/
  defaultChain : ℤ
  /-- The keys of the map of the chains. -/
  chains : List ℤ
  sample : ℕ := 1

namespace MultiLevelMemoryManager

/-- `new MultiLevelMemoryManager(capacity)`, on a clock that may have ticked before. -/
def make (capacity : ℕ) (clock : LogicalClock) : MultiLevelMemoryManager :=
  let (id, policy) := ChainedLeastRecentlyUsed.newChain {}
  { base := .make policy capacity clock, defaultChain := id, chains := [id] }

variable (m : MultiLevelMemoryManager)

/-- The heap and the policy after a method of the policy. -/
def setPolicy (heap : Heap) (policy : ChainedLeastRecentlyUsed) : MultiLevelMemoryManager :=
  { m with base := { m.base with heap, policy } }

/-- `chain.timestamp(this.sample)`. -/
def chainTimestamp (id : ℤ) : Java (ℕ × MultiLevelMemoryManager) := do
  let (timestamp, c) ← (m.base.policy.chains id).getTimestamp m.base.heap m.sample
  pure (timestamp, m.setPolicy m.base.heap (m.base.policy.setChain id c))

/-- An iteration of the loop of `evict_page`. -/
def considerChain (best : MultiLevelMemoryManager × ℕ × Option ℤ) (id : ℤ) :
    Java (MultiLevelMemoryManager × ℕ × Option ℤ) := do
  let (m, minimum, c) := best
  let (timestamp, m) ← m.chainTimestamp id
  if timestamp < minimum ∧ (m.base.policy.chains id).size > 0 then
    let (minimum, m) ← m.chainTimestamp id
    pure (m, minimum, some id)
  else pure (m, minimum, c)

/-- The chain to evict a page from, where `millis` is `System.currentTimeMillis()`, and the map of
    the chains is iterated over in the given order. -/
def evictPage (order : List ℤ) (millis : ℕ) : Java (MultiLevelMemoryManager × Option ℤ) := do
  let (m, _, c) ← order.foldlM considerChain
    ({ m with sample := m.sample + 1 }, millis + 1000, none)
  pure (m, c)

/-- A position for a page, and the page evicted if memory is full. -/
def freePosition (order : List ℤ) (millis : ℕ) :
    Java (MultiLevelMemoryManager × ℤ × Option PageRef) :=
  if m.base.isFull then do
    let (m, chain) ← m.evictPage order millis
    let chain ← deref chain
    let (page, heap, c) ← (m.base.policy.chains chain).evict m.base.heap
    let m := m.setPolicy heap (m.base.policy.setChain chain c)
    pure (m, m.base.evict page, some page)
  else
    .ok ({ m with base := { m.base with memoryPointer := m.base.memoryPointer + 1 } },
      m.base.memoryPointer, none)

/-- Access the page of an address. -/
def access (order : List ℤ) (millis : ℕ) (address : ℤ) :
    Java (MultiLevelMemoryManager × Outcome ℤ) :=
  match m.base.getFromMemory address with
  | none => do
    let (m, position, evicted) ← m.freePosition order millis
    let base ← m.base.loadTo position address
    let (heap, policy) ← base.policy.love base.heap (some address) m.defaultChain
    pure ({ m with base := { base with heap, policy } }, .fault evicted)
  | some page => .ok (m.setPolicy (m.base.heap.updateRefStats page) m.base.policy, .hit)

/-- Create a chain. -/
def chain : ℤ × MultiLevelMemoryManager :=
  let (id, policy) := m.base.policy.newChain
  (id, { m.setPolicy m.base.heap policy with chains := id :: m.chains })

/-- `policy.hate(p, p.link)`, for a page that is on a chain. -/
def leave (p : PageRef) : Java (Heap × ChainedLeastRecentlyUsed) :=
  let link := (m.base.heap.page p).link
  if link ≠ -1 then m.base.policy.hateLink m.base.heap (some p) link
  else .ok (m.base.heap, m.base.policy)

/-- `love`: the page leaves its chain, whichever it is, and joins the chain `l`. -/
def love (page l : ℤ) : Java MultiLevelMemoryManager := do
  let p ← deref (m.base.getFromMemory page)
  let (heap, policy) ← m.leave p
  let (heap, policy) ← policy.love heap (some p) l
  pure (m.setPolicy heap policy)

/-- `love` with a pin. -/
def lovePin (page l : ℤ) (pin : Bool) : Java MultiLevelMemoryManager := do
  let p ← deref (m.base.getFromMemory page)
  let (heap, policy) ← m.leave p
  let (heap, policy) ← policy.lovePin heap (some p) l pin
  pure (m.setPolicy heap policy)

/-- Remove all the pages from the chain of a page, and link the page to the default chain. -/
def hate (page _l : ℤ) : Java MultiLevelMemoryManager :=
  match m.base.getFromMemory page with
  | none => .ok m
  | some p =>
    if (m.base.heap.page p).link ≠ m.defaultChain then do
      let (heap, policy) ← m.base.policy.hate m.base.heap (some p)
      let (heap, policy) ← policy.love heap (some p) m.defaultChain
      pure (m.setPolicy heap policy)
    else .ok m

/-- The default chain. -/
def default : Chain := m.base.policy.chains m.defaultChain

end MultiLevelMemoryManager

/-! ## The default chain -/

/-- The pages `l` are on the chain `c`, which is not anchored and has no bound below that of an
    `int`, and the other pages are on no chain. -/
structure OnlyChain (c : Chain) (h : Heap) (l : List PageRef) : Prop where
  id_ne : c.id ≠ -1
  capacity_eq : c.capacity = 2147483647
  anchored_eq : c.anchored = false
  anchor_eq : c.anchor = none
  timestamp_le : c.timestamp ≤ h.clock.current
  holds : Holds c h l
  disk : ∀ q ∈ l, q ∈ h.disk
  time_le : ∀ q ∈ l, h.time q ≤ h.clock.current
  link_eq : ∀ q, (h.page q).link = if q ∈ l then c.id else -1
  links_eq : ∀ q, q ∉ l → h.next q = none ∧ h.prev q = none

namespace OnlyChain

variable {c : Chain} {h h' : Heap} {l : List PageRef} {a p : ℤ}

theorem length_le (hc : OnlyChain c h l) : l.length ≤ h.disk.length :=
  (hc.holds.list.nodup.subperm hc.disk).length_le

theorem nil {id : ℤ} (hid : id ≠ -1) (h : Heap) (hpage : ∀ q, h.page q = {}) :
    OnlyChain (.unbounded id false) h [] := by
  refine ⟨hid, rfl, rfl, rfl, Nat.zero_le _, ⟨.nil rfl, rfl, fun a ha => nomatch ha⟩, by simp,
    by simp, fun q => ?_, fun q _ => ?_⟩
  · rw [hpage]
    rfl
  · rw [Heap.next, Heap.prev, hpage]
    exact ⟨rfl, rfl⟩

theorem references {k : ℕ} (hc : OnlyChain c h l) (hr : References h h' a k) :
    OnlyChain c h' l := by
  have hle : h.clock.current ≤ h'.clock.current := hr.clock_eq ▸ Nat.le_add_right _ k
  have hnext : ∀ q, h'.next q = h.next q := fun q => congrArg (·.2.2.1) (hr.hints q)
  have hprev : ∀ q, h'.prev q = h.prev q := fun q => congrArg (·.2.2.2) (hr.hints q)
  refine ⟨hc.id_ne, hc.capacity_eq, hc.anchored_eq, hc.anchor_eq, hc.timestamp_le.trans hle,
    hc.holds.congr (fun q _ => hnext q) fun q _ => hprev q,
    fun q hq => (hr.mem_disk q).2 (.inr (hc.disk q hq)), fun q hq => ?_, fun q => ?_,
    fun q hq => ?_⟩
  · by_cases hqa : q = a
    · rw [hqa]
      exact hr.time_eq.le
    · exact (hr.time_of_ne hqa).le.trans ((hc.time_le q hq).trans hle)
  · rw [← hc.link_eq q]
    exact congrArg (·.2.1) (hr.hints q)
  · rw [hnext, hprev]
    exact hc.links_eq q hq

/-- The timestamp of the chain is computed. -/
theorem getTimestamp (hc : OnlyChain c h l) (sample : ℕ) :
    ∃ t ≤ h.clock.current, c.getTimestamp h sample = .ok (t, { c with timestamp := t, sample }) ∧
      OnlyChain { c with timestamp := t, sample } h l := by
  obtain ⟨t, ht, heq⟩ :=
    Chain.getTimestamp_spec hc.holds hc.length_le sample hc.timestamp_le hc.time_le
  exact ⟨t, ht, heq, hc.id_ne, hc.capacity_eq, hc.anchored_eq, hc.anchor_eq, ht,
    ⟨hc.holds.list, hc.holds.size, hc.holds.anchor⟩, hc.disk, hc.time_le, hc.link_eq, hc.links_eq⟩

/-- The least recently used page leaves the chain. -/
theorem evict (hc : OnlyChain c h l) (hne : l ≠ []) :
    ∃ p ∈ l, ∃ h' c', c.evict h = .ok (p, h', c') ∧ Oldest h.time l p ∧
      OnlyChain c' h' (l.erase p) ∧ c'.id = c.id ∧ h'.clock = h.clock ∧ h'.disk = h.disk ∧
      (∀ q, h'.time q = h.time q) ∧ ∀ q, q ∉ l → h'.page q = h.page q := by
  have hlink : ∀ q ∈ l, (h.page q).link ≠ -1 := fun q hq => by
    rw [hc.link_eq, if_pos hq]
    exact hc.id_ne
  obtain ⟨p, hp, h', head, tail, heq, hle, hholds, hw, hpage⟩ := Chain.evictLeast_spec hc.holds
    hc.length_le hne hc.anchored_eq hc.anchor_eq hlink
    fun q hq => (hc.time_le q hq).trans (Nat.le_succ _)
  -- The links of pages are written, and no time.
  have htime : ∀ q, h'.time q = h.time q := fun q => by
    by_cases hqp : q = p
    · rw [hqp, Heap.time, hpage]
      rfl
    · exact (congrArg MemoryPage.time (hw.detach_eq q hqp) :)
  have hout : ∀ q, q ∉ l → h'.page q = h.page q := fun q hq => hw.page_eq q hq (by
    rintro rfl
    exact hq hp)
  refine ⟨p, hp, h', _, heq, hle, ⟨hc.id_ne, hc.capacity_eq, hc.anchored_eq, hc.anchor_eq, ?_,
    hholds, fun q hq => ?_, fun q hq => ?_, fun q => ?_, fun q hq => ?_⟩, rfl, hw.clock_eq,
    hw.disk_eq, htime, hout⟩
  · rw [hw.clock_eq]
    exact hc.timestamp_le
  · rw [hw.disk_eq]
    exact hc.disk q (List.mem_of_mem_erase hq)
  · rw [htime, hw.clock_eq]
    exact hc.time_le q (List.mem_of_mem_erase hq)
  · -- The pages that name the chain are those of its list.
    by_cases hqp : q = p
    · rw [hqp, hpage, if_neg hc.holds.list.nodup.not_mem_erase]
    · have hq := (congrArg MemoryPage.link (hw.detach_eq q hqp) :)
      simp only [MemoryPage.detach, hc.link_eq] at hq
      rw [hq]
      simp only [List.mem_erase_of_ne hqp]
  · rw [Heap.next, Heap.prev]
    by_cases hqp : q = p
    · rw [hqp, hpage]
      exact ⟨rfl, rfl⟩
    · have hql : q ∉ l := fun hql => hq ((List.mem_erase_of_ne hqp).2 hql)
      rw [hout q hql]
      exact hc.links_eq q hql

/-- A page that is on no chain is added. -/
theorem add (hc : OnlyChain c h l) (ha : a ∉ l) (hlen : l.length < 2147483647) (hd : a ∈ h.disk)
    (ht : h.time a ≤ h.clock.current) :
    ∃ h' c', c.add h a = .ok (h', c') ∧ OnlyChain c' h' (a :: l) ∧ c'.id = c.id ∧
      h'.clock = h.clock ∧ h'.disk = h.disk ∧ (∀ q, h'.time q = h.time q) ∧
      ∀ q, q ∉ l → q ≠ a → h'.page q = h.page q := by
  have hlink : (h.page a).link ≠ c.id := by
    rw [hc.link_eq, if_neg ha]
    exact hc.id_ne.symm
  -- The capacity of the chain is that of an `int`, so that it is never full.
  have hfull : ¬c.size ≥ c.capacity := by
    rw [hc.holds.size, hc.capacity_eq]
    omega
  obtain ⟨hn, hp⟩ := hc.links_eq a ha
  obtain ⟨hholds, hw⟩ := Chain.push_spec hc.holds ha hn hp
  have hself := Chain.push_detach_self c h a
  have htime : ∀ q, (c.push h a).1.time q = h.time q := fun q => by
    by_cases hqa : q = a
    · rw [hqa]
      exact (congrArg MemoryPage.time hself :)
    · exact (congrArg MemoryPage.time (hw.detach_eq q hqa) :)
  refine ⟨(c.push h a).1, (c.push h a).2, ?_, ⟨?_, ?_, ?_, ?_, ?_, hholds, fun q hq => ?_,
    fun q hq => ?_, fun q => ?_, fun q hq => ?_⟩, ?_, hw.clock_eq, hw.disk_eq, htime, hw.page_eq⟩
  · rw [Chain.add, if_neg hlink, if_neg hfull]
  · -- The chain keeps its identifier, its capacity, and its flags.
    rw [Chain.push_chain]
    exact hc.id_ne
  · rw [Chain.push_chain]
    exact hc.capacity_eq
  · rw [Chain.push_chain]
    exact hc.anchored_eq
  · rw [Chain.push_chain]
    exact hc.anchor_eq
  · rw [Chain.push_chain, hw.clock_eq]
    exact hc.timestamp_le
  · rw [hw.disk_eq]
    rcases List.mem_cons.1 hq with rfl | hq
    · exact hd
    · exact hc.disk q hq
  · rw [htime, hw.clock_eq]
    rcases List.mem_cons.1 hq with rfl | hq
    · exact ht
    · exact hc.time_le q hq
  · rw [Chain.push_chain]
    by_cases hqa : q = a
    · rw [hqa, if_pos List.mem_cons_self]
      exact (congrArg MemoryPage.link hself :)
    · have hq := (congrArg MemoryPage.link (hw.detach_eq q hqa) :)
      simp only [MemoryPage.detach, hc.link_eq] at hq
      rw [hq]
      simp only [List.mem_cons, hqa, false_or]
  · rw [List.mem_cons, not_or] at hq
    rw [Heap.next, Heap.prev, hw.page_eq q hq.2 hq.1]
    exact hc.links_eq q hq.2
  · rw [Chain.push_chain]

end OnlyChain

/-! ## Without hints -/

/-- The memory holds the pages `slots`, and the pages `l` are on the default chain, the only
    chain there is. -/
structure Linked (n : ℕ) (m : MultiLevelMemoryManager) (slots l : List PageRef) : Prop where
  layout : Layout n m.base slots
  chains_eq : m.chains = [m.defaultChain]
  linkTable : m.defaultChain ∈ m.base.policy.linkTable
  id_eq : m.default.id = m.defaultChain
  chain : OnlyChain m.default m.base.heap l

namespace Linked

variable {n : ℕ} {m m' : MultiLevelMemoryManager} {slots slots' l l' : List PageRef} {a : ℤ}

theorem make (clock : LogicalClock) : Linked n (.make n clock) [] [] :=
  ⟨.make _ clock, rfl, List.mem_singleton.2 rfl, rfl, .nil (by decide) _ fun _ => rfl⟩

/-- A page is referenced, in a memory that may have changed. -/
theorem references {base : MemoryManager ChainedLeastRecentlyUsed} {k : ℕ}
    (h : Linked n m slots l) (hr : References m.base.heap base.heap a k)
    (hpol : base.policy = m.base.policy) (hlay : Layout n base slots') :
    Linked n { m with base } slots' l := by
  have hdef : MultiLevelMemoryManager.default { m with base } = m.default := by
    rw [MultiLevelMemoryManager.default, MultiLevelMemoryManager.default, hpol]
  refine ⟨hlay, h.chains_eq, ?_, ?_, ?_⟩
  · rw [hpol]
    exact h.linkTable
  · rw [hdef]
    exact h.id_eq
  · rw [hdef]
    exact h.chain.references hr

/-- The default chain is written, in a heap that is as before for the memory. -/
theorem setChain {heap : Heap} {c : Chain} (h : Linked n m slots l) (hc : OnlyChain c heap l')
    (hid : c.id = m.default.id) (hclock : heap.clock = m.base.heap.clock)
    (hdisk : heap.disk = m.base.heap.disk) (htime : ∀ q, heap.time q = m.base.heap.time q)
    (hpage : ∀ q, q ∉ m.base.heap.disk → heap.page q = m.base.heap.page q) :
    Linked n (m.setPolicy heap (m.base.policy.setChain m.defaultChain c)) slots l' := by
  have hdef : (m.setPolicy heap (m.base.policy.setChain m.defaultChain c)).default = c :=
    Function.update_self ..
  refine ⟨h.layout.congr rfl rfl hdisk hclock hpage htime, h.chains_eq, h.linkTable, ?_, ?_⟩
  · rw [hdef, hid]
    exact h.id_eq
  · rw [hdef]
    exact hc

theorem chainTimestamp (h : Linked n m slots l) :
    ∃ t ≤ m.base.heap.clock.current, ∃ m', m.chainTimestamp m.defaultChain = .ok (t, m') ∧
      Linked n m' slots l ∧ m'.base.heap = m.base.heap ∧ m'.defaultChain = m.defaultChain := by
  obtain ⟨t, ht, heq, hc⟩ := h.chain.getTimestamp m.sample
  refine ⟨t, ht, _, ?_, h.setChain hc rfl rfl rfl (fun _ => rfl) fun _ _ => rfl, rfl, rfl⟩
  rw [MultiLevelMemoryManager.default] at heq
  rw [MultiLevelMemoryManager.chainTimestamp, heq]
  rfl

theorem considerChain (h : Linked n m slots l) (hne : l ≠ []) {minimum : ℕ} {c : Option ℤ}
    (hmin : m.base.heap.clock.current < minimum) :
    ∃ m' t, MultiLevelMemoryManager.considerChain (m, minimum, c) m.defaultChain =
        .ok (m', t, some m.defaultChain) ∧
      Linked n m' slots l ∧ m'.base.heap = m.base.heap ∧ m'.defaultChain = m.defaultChain := by
  obtain ⟨t, ht, m₁, heq₁, h₁, hheap₁, hid₁⟩ := h.chainTimestamp
  obtain ⟨t', _, m₂, heq₂, h₂, hheap₂, hid₂⟩ := h₁.chainTimestamp
  have hsize : m₁.default.size > 0 := by
    rw [h₁.chain.holds.size]
    exact Int.natCast_pos.2 (List.length_pos_iff.2 hne)
  rw [MultiLevelMemoryManager.default, hid₁] at hsize
  rw [hid₁] at heq₂
  refine ⟨m₂, t', ?_, h₂, hheap₂.trans hheap₁, hid₂.trans hid₁⟩
  simp only [MultiLevelMemoryManager.considerChain, heq₁, ok_bind,
    if_pos (And.intro (ht.trans_lt hmin) hsize), heq₂, pure_eq_ok]

/-- The default chain is the one to evict a page from. -/
theorem evictPage (h : Linked n m slots l) (hne : l ≠ []) {millis : ℕ}
    (hmillis : m.base.heap.clock.current < millis + 1000) :
    ∃ m', m.evictPage [m.defaultChain] millis = .ok (m', some m'.defaultChain) ∧
      Linked n m' slots l ∧ m'.base.heap = m.base.heap := by
  have h₀ : Linked n { m with sample := m.sample + 1 } slots l :=
    ⟨h.layout, h.chains_eq, h.linkTable, h.id_eq, h.chain⟩
  obtain ⟨m', t, heq, h', hheap, hid⟩ := h₀.considerChain hne (c := none) hmillis
  refine ⟨m', ?_, h', hheap⟩
  dsimp only at heq hid
  rw [MultiLevelMemoryManager.evictPage]
  simp only [List.foldlM_cons, List.foldlM_nil, heq, hid, ok_bind, pure_eq_ok]

/-- In a full memory, the least recently used page leaves the default chain. -/
theorem freePosition (h : Linked n m slots l) (hl : l.Perm slots) (hlen : slots.length = n)
    (h0 : 0 < n) {millis : ℕ} (hmillis : m.base.heap.clock.current < millis + 1000) :
    ∃ m' p, m.freePosition [m.defaultChain] millis = .ok (m', m'.base.evict p, some p) ∧ p ∈ l ∧
      Oldest m.base.heap.time slots p ∧ Linked n m' slots (l.erase p) ∧
      m'.base.heap.clock = m.base.heap.clock ∧
      ∀ q, m'.base.heap.time q = m.base.heap.time q := by
  have hne : l ≠ [] := List.ne_nil_of_length_pos (by rwa [hl.length_eq, hlen])
  obtain ⟨m₁, hevict, h₁, hheap₁⟩ := h.evictPage hne hmillis
  obtain ⟨p, hp, heap, c, heq, hle, hc, hid, hclock, hdisk, htime, hpage⟩ := h₁.chain.evict hne
  rw [MultiLevelMemoryManager.default] at heq
  refine ⟨m₁.setPolicy heap (m₁.base.policy.setChain m₁.defaultChain c), p, ?_, hp, ?_,
    h₁.setChain hc hid hclock hdisk htime fun q hq => hpage q fun hql => hq (h₁.chain.disk q hql),
    ?_, fun q => ?_⟩
  · simp only [MultiLevelMemoryManager.freePosition, h.layout.isFull_iff.2 hlen, if_true, hevict,
      ok_bind, deref_some, heq, pure_eq_ok]
  · intro q hq
    rw [← hheap₁]
    exact hle q (hl.mem_iff.2 hq)
  · exact hclock.trans (by rw [hheap₁])
  · exact (htime q).trans (by rw [hheap₁])

/-- A page that is on no chain is linked to the default chain. -/
theorem love (h : Linked n m slots l) (ha : a ∉ l) (hmem : a ∈ slots)
    (hlen : l.length < 2147483647) :
    ∃ heap policy, m.base.policy.love m.base.heap (some a) m.defaultChain = .ok (heap, policy) ∧
      Linked n (m.setPolicy heap policy) slots (a :: l) ∧
      heap.clock = m.base.heap.clock ∧ ∀ q, heap.time q = m.base.heap.time q := by
  have hlink : (m.base.heap.page a).link = -1 := by rw [h.chain.link_eq, if_neg ha]
  have hd := h.layout.disk a hmem
  obtain ⟨heap, c, heq, hc, hid, hclock, hdisk, htime, hpage⟩ :=
    h.chain.add ha hlen hd (h.layout.time_le a hmem)
  refine ⟨heap, m.base.policy.setChain m.defaultChain c, ?_,
    h.setChain hc hid hclock hdisk htime fun q hq => hpage q (fun hql => hq (h.chain.disk q hql)) ?_,
    hclock, htime⟩
  · rw [MultiLevelMemoryManager.default] at heq
    simp only [ChainedLeastRecentlyUsed.love, ChainedLeastRecentlyUsed.leave, hlink, deref_some,
      ok_bind, ne_eq, not_true_eq_false, false_and, if_false, ChainedLeastRecentlyUsed.chainAdd,
      ChainedLeastRecentlyUsed.chain, if_pos h.linkTable, heq, pure_eq_ok]
  · rintro rfl
    exact hq hd

/-! ### Accesses -/

/-- The manager after a page has been loaded and linked. -/
theorem load {base : MemoryManager ChainedLeastRecentlyUsed} (h : Linked n m slots l)
    (hr : References m.base.heap base.heap a 2) (hpol : base.policy = m.base.policy)
    (hlay : Layout n base slots') (ha : a ∉ l) (hmem : a ∈ slots') (hlen : l.length < 2147483647) :
    ∃ heap policy, base.policy.love base.heap (some a) m.defaultChain = .ok (heap, policy) ∧
      Linked n { m with base := { base with heap, policy } } slots' (a :: l) ∧
      heap.time a = m.base.heap.clock.current + 2 ∧
      heap.clock.current = m.base.heap.clock.current + 2 ∧
      ∀ q, q ≠ a → heap.time q = m.base.heap.time q := by
  obtain ⟨heap, policy, heq, h', hclock, htime⟩ := (h.references hr hpol hlay).love ha hmem hlen
  refine ⟨heap, policy, heq, h', ?_, ?_, fun q hq => ?_⟩
  · rw [htime]
    exact hr.time_eq.trans hr.clock_eq
  · rw [hclock]
    exact hr.clock_eq
  · rw [htime]
    exact hr.time_of_ne hq

/-- An access, as one to a memory that evicts the page of least time. -/
theorem access_serves (h : Linked n m slots l) (hl : l.Perm slots) (h0 : 0 < n)
    (hn : n ≤ 2147483647) {millis : ℕ} (hmillis : m.base.heap.clock.current < millis + 1000)
    (a : ℤ) :
    ∃ m' o slots' l', m.access [m.defaultChain] millis a = .ok (m', o) ∧
      Linked n m' slots' l' ∧ l'.Perm slots' ∧
      Serves n a o slots slots' (Oldest m.base.heap.time slots) m.base.heap.time
        m'.base.heap.time ∧
      m'.base.heap.clock.current = m.base.heap.clock.current + if o.isFault then 2 else 1 := by
  -- The time of a page that is loaded is that of the clock after two ticks.
  have hstamp : ∀ b ∈ slots, m.base.heap.time b < m.base.heap.clock.current + 2 := fun b hb =>
    Nat.lt_succ_of_lt (Nat.lt_succ_of_le (h.layout.time_le b hb))
  by_cases ha : a ∈ slots
  · -- The page is in memory: it is referenced, and the chain is left as it is.
    have hr := references_updateRefStats (h.layout.disk a ha)
    have hlay := h.layout.hit ha
    refine ⟨{ m with base := { m.base with heap := m.base.heap.updateRefStats a } }, .hit, slots, l,
      ?_, h.references hr rfl hlay, hl, h.layout.serves hlay hr Nat.one_pos (fun _ => rfl) rfl
        (fun b => ?_) (.inl ⟨ha, rfl⟩), hr.clock_eq⟩
    · rw [MultiLevelMemoryManager.access, h.layout.getFromMemory_of_mem ha]
      rfl
    · simp only [ne_eq, reduceCtorEq, not_false_eq_true, and_true, iff_or_self]
      rintro rfl
      exact ha
  have hget := h.layout.getFromMemory_of_not_mem ha
  have hal : a ∉ l := fun hal => ha (hl.mem_iff.1 hal)
  rcases h.layout.length_le.lt_or_eq with hlt | hlen
  · -- There is a free slot.
    have hfull : ¬m.base.isFull = true := by
      rw [h.layout.isFull_iff]
      omega
    obtain ⟨base, heq, hpol, hr, hlay⟩ := h.layout.append ha hlt
    obtain ⟨heap, policy, hlove, h', hta, hclock, htime⟩ := h.load hr hpol hlay hal
      (List.mem_append_right _ (List.mem_singleton.2 rfl)) (by rw [hl.length_eq]; omega)
    refine ⟨_, .fault none, slots ++ [a], a :: l, ?_, h', ?_, ⟨h'.layout.nodup, fun b => ?_,
      .inr (.inl ⟨ha, hlt, rfl⟩), fun b _ _ hba => htime b hba, fun b hb _ => ?_⟩, hclock⟩
    · simp only [MultiLevelMemoryManager.access, hget, MultiLevelMemoryManager.freePosition,
        if_neg hfull, ok_bind, heq, hlove, pure_eq_ok]
    · exact (hl.cons a).trans (List.perm_append_singleton a slots).symm
    · simp [or_comm]
    · exact (hstamp b hb).trans_eq hta.symm
  · -- The default chain evicts a page.
    obtain ⟨m₁, p, hfree, hp, hle, h₁, hclock₁, htime₁⟩ := h.freePosition hl hlen h0 hmillis
    have hps := hl.mem_iff.1 hp
    obtain ⟨base, slots', heq, hpol, hr, hlay, hmem⟩ := h₁.layout.replace hlen hps ha
    have hlen' : (l.erase p).length < 2147483647 := by
      have := List.length_pos_of_mem hp
      rw [List.length_erase_of_mem hp, hl.length_eq]
      omega
    obtain ⟨heap, policy, hlove, h', hta, hclock, htime⟩ := h₁.load hr hpol hlay
      (fun h' => hal (List.mem_of_mem_erase h')) ((hmem a).2 (.inl rfl)) hlen'
    rw [hclock₁] at hta hclock
    refine ⟨_, .fault (some p), slots', a :: l.erase p, ?_, h', ?_, ⟨hlay.nodup, fun b => ?_,
      .inr (.inr ⟨p, hps, ha, hlen, rfl, hle⟩), fun b _ _ hba => (htime b hba).trans (htime₁ b),
      fun b hb _ => ?_⟩, hclock⟩
    · simp only [MultiLevelMemoryManager.access, hget, hfree, ok_bind, heq, hlove, pure_eq_ok]
    · refine (List.perm_ext_iff_of_nodup h'.chain.holds.list.nodup hlay.nodup).2 fun b => ?_
      rw [hmem, List.mem_cons, h.chain.holds.list.nodup.mem_erase_iff, hl.mem_iff, and_comm]
    · rw [hmem]
      simp [eq_comm]
    · exact (hstamp b hb).trans_eq hta.symm

end Linked

/-- A run of accesses on a new manager of capacity `n`, where `millis i` is the system time at the
    `i`-th access. There is one chain, so that there is one order to iterate over the chains in. -/
def multiLevelRun (n : ℕ) (clock : LogicalClock) (millis : ℕ → ℕ) (as : List ℤ) :
    Java (MultiLevelMemoryManager × List (Outcome ℤ)) :=
  runAccesses (fun i m a => m.access m.chains (millis i) a) 0 (.make n clock) as

/-- The manager is the LRU stack if the system time is ahead of the logical times of the run, in
    which the clock ticks once at each access, and once more at each fault. -/
theorem multiLevel_outcomes {n : ℕ} (h0 : 0 < n) (hn : n ≤ 2147483647) (clock : LogicalClock)
    (millis : ℕ → ℕ) (as : List ℤ)
    (hmillis : ∀ i, clock.current + as.length + faults (lruOutcomes n [] as) < millis i + 1000) :
    ∃ m, multiLevelRun n clock millis as = .ok (m, lruOutcomes n [] as) := by
  -- The ticks to come are those of the accesses to come.
  let R : List ℤ → MultiLevelMemoryManager → List ℤ → Prop := fun as m l =>
    (∃ slots c, Linked n m slots c ∧ c.Perm slots ∧ OrderedBy m.base.heap.time l ∧
      l.Perm slots) ∧
    ∀ i, m.base.heap.clock.current + as.length + faults (lruOutcomes n l as) < millis i + 1000
  have hstep : ∀ i m l a as, R (a :: as) m l →
      ∃ m', m.access m.chains (millis i) a = .ok (m', outcome n l a) ∧ R as m' (touch n l a) := by
    rintro i m l a as ⟨⟨slots, c, h, hc, hord, hl⟩, hticks⟩
    obtain ⟨m', o, slots', c', heq, h', hc', hserves, hclock⟩ := h.access_serves hc h0 hn
      (lt_of_le_of_lt (by omega) (hticks i)) a
    obtain ⟨rfl, hord', hl'⟩ := hord.serves hl h.layout.length_le h0 hserves
    refine ⟨m', by rw [h.chains_eq]; exact heq, ⟨slots', c', h', hc', hord', hl'⟩, fun j => ?_⟩
    refine lt_of_eq_of_lt ?_ (hticks j)
    rw [hclock, lruOutcomes, faults, faults, List.countP_cons, List.length_cons]
    split_ifs <;> omega
  obtain ⟨m, heq, -⟩ := runAccesses_lru hstep (i := 0) as
    (s := .make n clock) ⟨⟨[], [], .make clock, .nil, .nil, .nil⟩, hmillis⟩
  exact ⟨m, heq⟩

end Mcpq.Simulator
