import Mcpq.Simulator.MemoryManager

/-!
# The layout of the simulator's memory

The slots of the memory in use come first, and hold distinct pages (`Layout`). A manager whose policy
finds a page to evict (`Evicts`) serves every access (`access_serves`), and keeps the layout.
-/

namespace Mcpq.Simulator

variable {σ : Type}

/-- The fields of a page a policy reads that accesses do not write. -/
def MemoryPage.hints (p : MemoryPage) : ℤ × ℤ × Option PageRef × Option PageRef :=
  (p.love, p.link, p.next, p.prev)

/-- In the states and heaps `I`, the policy finds a page of a full memory of capacity `n` that `C`
    allows. It may write the pages, but not their times. -/
structure Evicts (n : ℕ) (P : IPageReplacementPolicy σ) (I : σ → Heap → Prop)
    (C : Heap → List PageRef → PageRef → Prop) : Prop where
  find : ∀ s h pages, I s h → pages.length = n → pages ≠ [] →
    (∀ p ∈ pages, h.time p ≤ h.clock.current) →
    ∃ p ∈ pages, ∃ h' s', P.findPageToEvict s h (pages.map some) = .ok (some p, h', s') ∧
      C h pages p ∧ I s' h' ∧
      (∀ q, h'.time q = h.time q) ∧ h'.clock = h.clock ∧ h'.disk = h.disk ∧
      ∀ q, q ∉ pages → q ∉ h.disk → h'.page q = h.page q
  congr : ∀ s h h', I s h → (∀ q, (h'.page q).hints = (h.page q).hints) → I s h'

/-- The slots in use of the memory hold the pages `slots`. -/
structure Frames (n : ℕ) (m : MemoryManager σ) (slots : List PageRef) : Prop where
  memory_eq : m.memory = slots.map some ++ List.replicate (n - slots.length) none
  pointer_eq : m.memoryPointer = slots.length
  length_le : slots.length ≤ n
  nodup : slots.Nodup
  disk : ∀ p ∈ slots, p ∈ m.heap.disk
  blank : ∀ p, p ∉ m.heap.disk → m.heap.page p = {}

/-- The slots in use of the memory hold the pages `slots`, none of them stamped later than now. -/
structure Layout (n : ℕ) (m : MemoryManager σ) (slots : List PageRef) : Prop
    extends Frames n m slots where
  time_le : ∀ p ∈ slots, m.heap.time p ≤ m.heap.clock.current

namespace Frames

variable {n : ℕ} {m : MemoryManager σ} {slots : List PageRef} {a : ℤ}

theorem mem_memory (h : Frames n m slots) : some a ∈ m.memory ↔ a ∈ slots := by
  rw [h.memory_eq, List.mem_append, List.mem_map, List.mem_replicate]
  simp

theorem length_memory (h : Frames n m slots) : m.memory.length = n := by
  have := h.length_le
  rw [h.memory_eq, List.length_append, List.length_map, List.length_replicate]
  omega

theorem isFull_iff (h : Frames n m slots) : m.isFull = true ↔ slots.length = n := by
  have := h.length_le
  rw [MemoryManager.isFull, decide_eq_true_iff, h.length_memory, h.pointer_eq]
  omega

theorem memory_of_full (h : Frames n m slots) (hfull : slots.length = n) :
    m.memory = slots.map some := by
  rw [h.memory_eq, hfull, Nat.sub_self, List.replicate_zero, List.append_nil]

theorem getFromMemory_of_mem (h : Frames n m slots) (ha : a ∈ slots) :
    m.getFromMemory a = some a := by
  rw [MemoryManager.getFromMemory]
  cases hf : m.memory.find? (· == some a) with
  | none =>
    rw [List.find?_eq_none] at hf
    exact absurd (beq_self_eq_true (some a)) (hf _ (h.mem_memory.2 ha))
  | some p =>
    obtain rfl : p = some a := by simpa using List.find?_some hf
    rfl

theorem getFromMemory_of_not_mem (h : Frames n m slots) (ha : a ∉ slots) :
    m.getFromMemory a = none := by
  rw [MemoryManager.getFromMemory, List.find?_eq_none.2]
  · rfl
  · intro p hp hpa
    exact ha (h.mem_memory.1 (eq_of_beq hpa ▸ hp))

theorem getFromMemory_isSome (h : Frames n m slots) :
    (m.getFromMemory a).isSome = true ↔ a ∈ slots := by
  by_cases ha : a ∈ slots
  · rw [h.getFromMemory_of_mem ha]
    simp [ha]
  · rw [h.getFromMemory_of_not_mem ha]
    simp [ha]

/-- A page of a full memory has a position. -/
theorem evict_of_mem (h : Frames n m slots) (hfull : slots.length = n) (ha : a ∈ slots) :
    ∃ i : ℕ, m.evict a = i ∧ slots[i]? = some a := by
  have hmem : m.memory.findIdx? (· == some a) = some (slots.idxOf a) := by
    rw [h.memory_of_full hfull, List.findIdx?_map, List.findIdx?_eq_some_iff_findIdx_eq]
    refine ⟨List.idxOf_lt_length_of_mem ha, ?_⟩
    rw [List.idxOf]
    congr 1
  refine ⟨slots.idxOf a, ?_, ?_⟩
  · rw [MemoryManager.evict, hmem]
  · rw [List.getElem?_eq_getElem (List.idxOf_lt_length_of_mem ha), List.getElem_idxOf]

/-- The slots in use only depend on the memory and on which pages exist. -/
theorem congr {σ' : Type} {m' : MemoryManager σ'} (h : Frames n m slots)
    (hmem : m'.memory = m.memory) (hptr : m'.memoryPointer = m.memoryPointer)
    (hdisk : m'.heap.disk = m.heap.disk)
    (hpage : ∀ q, q ∉ m.heap.disk → m'.heap.page q = m.heap.page q) : Frames n m' slots := by
  refine ⟨hmem.trans h.memory_eq, hptr.trans h.pointer_eq, h.length_le, h.nodup, fun p hp => ?_,
    fun p hp => ?_⟩
  · rw [hdisk]
    exact h.disk p hp
  · rw [hdisk] at hp
    rw [hpage p hp, h.blank p hp]

theorem make (policy : σ) (clock : LogicalClock) : Frames n (.make policy n clock) [] :=
  ⟨by simp [MemoryManager.make], rfl, Nat.zero_le n, List.nodup_nil, by simp, fun _ _ => rfl⟩

end Frames

namespace Layout

variable {n : ℕ} {m : MemoryManager σ} {slots : List PageRef} {a : ℤ}

/-- The layout only depends on the memory, on the times of its pages and on which pages exist. -/
theorem congr {σ' : Type} {m' : MemoryManager σ'} (h : Layout n m slots)
    (hmem : m'.memory = m.memory) (hptr : m'.memoryPointer = m.memoryPointer)
    (hdisk : m'.heap.disk = m.heap.disk) (hclock : m'.heap.clock = m.heap.clock)
    (hpage : ∀ q, q ∉ m.heap.disk → m'.heap.page q = m.heap.page q)
    (htime : ∀ q, m'.heap.time q = m.heap.time q) : Layout n m' slots := by
  refine ⟨h.toFrames.congr hmem hptr hdisk hpage, fun p hp => ?_⟩
  rw [hclock]
  exact (htime p).le.trans (h.time_le p hp)

theorem make (policy : σ) (clock : LogicalClock) : Layout n (.make policy n clock) [] :=
  ⟨.make policy clock, by simp⟩

end Layout

/-! ## References -/

/-- From `h` to `h'`, the page of the address `a` is referenced, and the clock ticks `k` times. -/
structure References (h h' : Heap) (a : ℤ) (k : ℕ) : Prop where
  page_eq : ∀ q, q ≠ a → h'.page q = h.page q
  hints_eq : (h'.page a).hints = (h.page a).hints
  time_eq : h'.time a = h'.clock.current
  clock_eq : h'.clock.current = h.clock.current + k
  mem_disk : ∀ q, q ∈ h'.disk ↔ q = a ∨ q ∈ h.disk

namespace References

variable {h h' : Heap} {a : ℤ} {k : ℕ}

theorem hints (hr : References h h' a k) (q : PageRef) :
    (h'.page q).hints = (h.page q).hints := by
  by_cases hq : q = a
  · rw [hq]
    exact hr.hints_eq
  · rw [hr.page_eq q hq]

theorem time_of_ne (hr : References h h' a k) {q : PageRef} (hq : q ≠ a) :
    h'.time q = h.time q :=
  congrArg MemoryPage.time (hr.page_eq q hq)

end References

section references

variable {n : ℕ} {m m' : MemoryManager σ} {slots slots' : List PageRef} {a : ℤ}

theorem references_updateRefStats {h : Heap} (ha : a ∈ h.disk) :
    References h (h.updateRefStats a) a 1 := by
  refine ⟨fun q hq => ?_, ?_, ?_, rfl, fun q => ?_⟩
  · simp [Heap.updateRefStats, Heap.modify_page_of_ne _ _ hq]
  · simp [Heap.updateRefStats, MemoryPage.hints, MemoryPage.updateRefStats]
  · simp [Heap.updateRefStats, Heap.time, MemoryPage.updateRefStats]
  · simp only [Heap.updateRefStats, Heap.tick_disk, Heap.modify_disk, iff_or_self]
    rintro rfl
    exact ha

/-- Loading the page of an address to a position. -/
theorem loadTo_eq (hblank : ∀ p, p ∉ m.heap.disk → m.heap.page p = {}) {i : ℕ}
    (hi : i < m.memory.length) :
    ∃ h', m.loadTo i a = .ok { m with heap := h', memory := m.memory.set i (some a) } ∧
      References m.heap h' a 2 := by
  rw [MemoryManager.loadTo, MemoryManager.getFromDisk]
  by_cases ha : a ∈ m.heap.disk
  · rw [if_pos ha]
    simp only [arraySet_natCast hi, ok_bind, pure_eq_ok]
    refine ⟨_, rfl, fun q hq => ?_, ?_, ?_, ?_, fun q => ?_⟩
    · simp [Heap.updateRefStats, Heap.updateLoadStats, Heap.modify_page_of_ne _ _ hq]
    · simp [Heap.updateRefStats, Heap.updateLoadStats, MemoryPage.hints,
        MemoryPage.updateRefStats, MemoryPage.updateLoadStats]
    · simp [Heap.updateRefStats, Heap.updateLoadStats, Heap.time, MemoryPage.updateRefStats]
    · simp [Heap.updateRefStats, Heap.updateLoadStats]
    · simp only [Heap.updateRefStats, Heap.updateLoadStats, Heap.tick_disk, Heap.modify_disk,
        iff_or_self]
      rintro rfl
      exact ha
  · rw [if_neg ha]
    simp only [arraySet_natCast hi, ok_bind, pure_eq_ok]
    refine ⟨_, rfl, fun q hq => ?_, ?_, ?_, ?_, fun q => ?_⟩
    · simp [Heap.updateRefStats, Heap.updateLoadStats, Heap.modify_page_of_ne _ _ hq,
        Function.update_of_ne hq]
    · simp [Heap.updateRefStats, Heap.updateLoadStats, MemoryPage.hints,
        MemoryPage.updateRefStats, MemoryPage.updateLoadStats, hblank a ha]
    · simp [Heap.updateRefStats, Heap.updateLoadStats, Heap.time, MemoryPage.updateRefStats]
    · simp [Heap.updateRefStats, Heap.updateLoadStats]
    · simp [Heap.updateRefStats, Heap.updateLoadStats]

/-- The page loaded is referenced. -/
theorem loadTo_referenced {i : ℤ} (heq : m.loadTo i a = .ok m') :
    (m'.heap.page a).referenced = true := by
  rw [MemoryManager.loadTo, MemoryManager.getFromDisk] at heq
  split_ifs at heq
  all_goals
    obtain ⟨memory, -, heq⟩ := bind_eq_ok heq
    obtain rfl := Except.ok.inj heq
    simp [Heap.updateRefStats, MemoryPage.updateRefStats]

namespace Frames

/-- The slots in use after a page has been referenced, in a memory with at most one page more. -/
theorem references {k : ℕ} (h : Frames n m slots) (hr : References m.heap m'.heap a k)
    (hmem : m'.memory = slots'.map some ++ List.replicate (n - slots'.length) none)
    (hptr : m'.memoryPointer = slots'.length) (hlen : slots'.length ≤ n) (hnodup : slots'.Nodup)
    (hsub : ∀ q ∈ slots', q = a ∨ q ∈ slots) : Frames n m' slots' := by
  refine ⟨hmem, hptr, hlen, hnodup, fun q hq => (hr.mem_disk q).2 ((hsub q hq).imp_right (h.disk q)),
    fun q hq => ?_⟩
  rw [hr.mem_disk] at hq
  push Not at hq
  rw [hr.page_eq q hq.1, h.blank q hq.2]

/-- A page in memory is referenced. -/
theorem hit (h : Frames n m slots) (ha : a ∈ slots) :
    Frames n { m with heap := m.heap.updateRefStats a } slots :=
  h.references (references_updateRefStats (h.disk a ha)) h.memory_eq h.pointer_eq h.length_le
    h.nodup fun _ => .inr

/-- A page is loaded to the next free slot. -/
theorem append (h : Frames n m slots) (ha : a ∉ slots) (hlt : slots.length < n) :
    ∃ m', MemoryManager.loadTo { m with memoryPointer := m.memoryPointer + 1 }
        m.memoryPointer a = .ok m' ∧
      m'.policy = m.policy ∧ References m.heap m'.heap a 2 ∧ Frames n m' (slots ++ [a]) := by
  obtain ⟨h', heq, hr⟩ := loadTo_eq (m := { m with memoryPointer := m.memoryPointer + 1 })
    (a := a) (i := m.memoryPointer) h.blank (by
      change _ < m.memory.length
      rwa [h.length_memory, h.pointer_eq])
  refine ⟨_, heq, rfl, hr, h.references hr ?_ ?_ ?_ ?_ fun q hq => ?_⟩
  · obtain ⟨k, hk⟩ : ∃ k, n - slots.length = k + 1 := ⟨n - slots.length - 1, by omega⟩
    have hk' : n - (slots ++ [a]).length = k := by
      rw [List.length_append, List.length_singleton]
      omega
    simp only [h.memory_eq, h.pointer_eq, hk, hk']
    rw [List.set_append_right _ _ (by simp), List.length_map, Nat.sub_self, List.replicate_succ,
      List.set_cons_zero]
    simp
  · simp [h.pointer_eq]
  · simpa using hlt
  · rw [List.nodup_append_comm]
    exact List.nodup_cons.2 ⟨ha, h.nodup⟩
  · rcases List.mem_append.1 hq with hq | hq
    · exact .inr hq
    · exact .inl (List.mem_singleton.1 hq)

theorem exists_split {l : List PageRef} {i : ℕ} {p : PageRef} (h : l[i]? = some p) :
    ∃ l₁ l₂, l = l₁ ++ p :: l₂ ∧ i = l₁.length := by
  obtain ⟨hi, rfl⟩ := List.getElem?_eq_some_iff.1 h
  refine ⟨l.take i, l.drop (i + 1), ?_, ?_⟩
  · rw [List.cons_getElem_drop_succ, List.take_append_drop]
  · rw [List.length_take]
    omega

/-- A page is loaded to the slot of the page `p` of a full memory. -/
theorem replace_at {l₁ l₂ : List PageRef} {p : PageRef} (h : Frames n m (l₁ ++ p :: l₂))
    (hlen : (l₁ ++ p :: l₂).length = n) (ha : a ∉ l₁ ++ p :: l₂) :
    ∃ m', m.loadTo (m.evict p) a = .ok m' ∧ m'.policy = m.policy ∧
      References m.heap m'.heap a 2 ∧ Frames n m' (l₁ ++ a :: l₂) := by
  have hnd := h.nodup
  rw [List.nodup_middle, List.nodup_cons] at hnd
  have hp : p ∉ l₁ := fun hp => hnd.1 (List.mem_append_left _ hp)
  obtain ⟨i, hi, hip⟩ := h.evict_of_mem hlen (a := p) (by simp)
  obtain ⟨l₁', l₂', hslots, rfl⟩ := exists_split hip
  obtain ⟨rfl, -, rfl⟩ := (List.append_cons_inj_of_notMem hp fun hp' =>
    hnd.1 (List.mem_append_right _ hp')).1 hslots
  obtain ⟨h', heq, hr⟩ := loadTo_eq (m := m) (a := a) (i := l₁.length) h.blank (by
    rw [h.length_memory, ← hlen]
    simp)
  rw [hi]
  refine ⟨_, heq, rfl, hr, h.references hr ?_ ?_ ?_ ?_ fun q hq => ?_⟩
  · have hlen' : n - (l₁ ++ a :: l₂).length = 0 := by
      rw [← hlen]
      simp
    simp only [hlen', h.memory_of_full hlen, List.map_append]
    rw [List.set_append_right _ _ (by simp)]
    simp
  · simp [h.pointer_eq]
  · rw [← hlen]
    simp
  · rw [List.nodup_middle]
    refine List.nodup_cons.2 ⟨fun hal => ha ?_, hnd.2⟩
    simp only [List.mem_append, List.mem_cons] at hal ⊢
    tauto
  · simp only [List.mem_append, List.mem_cons] at hq ⊢
    tauto

/-- A page is loaded to the slot of a page of a full memory. -/
theorem replace (h : Frames n m slots) (hlen : slots.length = n) {p : PageRef} (hp : p ∈ slots)
    (ha : a ∉ slots) :
    ∃ m' slots', m.loadTo (m.evict p) a = .ok m' ∧ m'.policy = m.policy ∧
      References m.heap m'.heap a 2 ∧ Frames n m' slots' ∧
      ∀ b, b ∈ slots' ↔ b = a ∨ b ∈ slots ∧ b ≠ p := by
  obtain ⟨l₁, l₂, rfl⟩ := List.append_of_mem hp
  obtain ⟨m', heq, hpol, hr, hf⟩ := h.replace_at hlen ha
  refine ⟨m', _, heq, hpol, hr, hf, fun b => ?_⟩
  have hnd := h.nodup
  rw [List.nodup_middle, List.nodup_cons, List.mem_append, not_or] at hnd
  have hbp : b = p → b ∉ l₁ ∧ b ∉ l₂ := by
    rintro rfl
    exact hnd.1
  simp only [List.mem_append, List.mem_cons]
  tauto

end Frames

namespace Layout

/-- The layout after a page has been referenced, in a memory with at most one page more. -/
theorem references {k : ℕ} (h : Layout n m slots) (hr : References m.heap m'.heap a k)
    (hf : Frames n m' slots') (hsub : ∀ q ∈ slots', q = a ∨ q ∈ slots) : Layout n m' slots' := by
  refine ⟨hf, fun q hq => ?_⟩
  by_cases hqa : q = a
  · rw [hqa, hr.time_eq]
  · rw [hr.time_of_ne hqa, hr.clock_eq]
    exact (h.time_le q ((hsub q hq).resolve_left hqa)).trans (Nat.le_add_right _ k)

/-- A page in memory is referenced. -/
theorem hit (h : Layout n m slots) (ha : a ∈ slots) :
    Layout n { m with heap := m.heap.updateRefStats a } slots :=
  h.references (references_updateRefStats (h.disk a ha)) (h.toFrames.hit ha) fun _ => .inr

/-- A page is loaded to the next free slot. -/
theorem append (h : Layout n m slots) (ha : a ∉ slots) (hlt : slots.length < n) :
    ∃ m', MemoryManager.loadTo { m with memoryPointer := m.memoryPointer + 1 }
        m.memoryPointer a = .ok m' ∧
      m'.policy = m.policy ∧ References m.heap m'.heap a 2 ∧ Layout n m' (slots ++ [a]) := by
  obtain ⟨m', heq, hpol, hr, hf⟩ := h.toFrames.append ha hlt
  refine ⟨m', heq, hpol, hr, h.references hr hf fun q hq => ?_⟩
  rw [List.mem_append, List.mem_singleton] at hq
  exact hq.symm

/-- A page is loaded to the slot of a page of a full memory. -/
theorem replace (h : Layout n m slots) (hlen : slots.length = n) {p : PageRef} (hp : p ∈ slots)
    (ha : a ∉ slots) :
    ∃ m' slots', m.loadTo (m.evict p) a = .ok m' ∧ m'.policy = m.policy ∧
      References m.heap m'.heap a 2 ∧ Layout n m' slots' ∧
      ∀ b, b ∈ slots' ↔ b = a ∨ b ∈ slots ∧ b ≠ p := by
  obtain ⟨m', slots', heq, hpol, hr, hf, hmem⟩ := h.toFrames.replace hlen hp ha
  exact ⟨m', slots', heq, hpol, hr,
    h.references hr hf fun q hq => ((hmem q).1 hq).imp_right And.left, hmem⟩

end Layout

end references

/-! ## Accesses -/

section access

variable {P : IPageReplacementPolicy σ} {I : σ → Heap → Prop}
  {C : Heap → List PageRef → PageRef → Prop} {n : ℕ} {m m' : MemoryManager σ}
  {slots slots' : List PageRef} {a : ℤ}

/-- What an access does to the memory: its outcome is `o`, where the page evicted satisfies `V`, and
    the slots in use go from `slots` to `slots'`. -/
theorem Layout.serves {h₁ : Heap} {k : ℕ} {o : Outcome ℤ} {V : PageRef → Prop}
    (h : Layout n m slots) (h' : Layout n m' slots') (hr : References h₁ m'.heap a k) (hk : 0 < k)
    (htime : ∀ q, h₁.time q = m.heap.time q) (hclock : h₁.clock = m.heap.clock)
    (hmem : ∀ b, b ∈ slots' ↔ b = a ∨ b ∈ slots ∧ o ≠ .fault (some b))
    (ho : a ∈ slots ∧ o = .hit ∨ a ∉ slots ∧ slots.length < n ∧ o = .fault none ∨
      ∃ v ∈ slots, a ∉ slots ∧ slots.length = n ∧ o = .fault (some v) ∧ V v) :
    Serves n a o slots slots' V m.heap.time m'.heap.time := by
  refine ⟨h'.nodup, hmem, ho, fun b _ _ hba => (hr.time_of_ne hba).trans (htime b),
    fun b hb _ => ?_⟩
  rw [hr.time_eq, hr.clock_eq, hclock]
  exact (h.time_le b hb).trans_lt (Nat.lt_add_of_pos_right hk)

/-- An access to a page in memory. -/
theorem access_hit (hI : Evicts n P I C) (h : Layout n m slots) (hm : I m.policy m.heap)
    (ha : a ∈ slots) :
    ∃ m', m.access P a = .ok (m', .hit) ∧ Layout n m' slots ∧ I m'.policy m'.heap ∧
      Serves n a .hit slots slots (C m.heap slots) m.heap.time m'.heap.time := by
  have hr := references_updateRefStats (h.disk a ha)
  refine ⟨{ m with heap := m.heap.updateRefStats a }, ?_, h.hit ha, hI.congr _ _ _ hm hr.hints,
    h.serves (h.hit ha) hr Nat.one_pos (fun _ => rfl) rfl (fun b => ?_) (.inl ⟨ha, rfl⟩)⟩
  · rw [MemoryManager.access, h.getFromMemory_of_mem ha]
  · simp only [ne_eq, reduceCtorEq, not_false_eq_true, and_true, iff_or_self]
    rintro rfl
    exact ha

/-- An access to a page that is not in memory, when there is a free slot. -/
theorem access_free (hI : Evicts n P I C) (h : Layout n m slots) (hm : I m.policy m.heap)
    (ha : a ∉ slots) (hlt : slots.length < n) :
    ∃ m', m.access P a = .ok (m', .fault none) ∧ Layout n m' (slots ++ [a]) ∧
      I m'.policy m'.heap ∧
      Serves n a (.fault none) slots (slots ++ [a]) (C m.heap slots) m.heap.time m'.heap.time := by
  have hfull : ¬m.isFull = true := by
    rw [h.isFull_iff]
    omega
  obtain ⟨m', heq, hpol, hr, h'⟩ := h.append ha hlt
  refine ⟨m', ?_, h', hpol ▸ hI.congr _ _ _ hm hr.hints,
    h.serves h' hr Nat.two_pos (fun _ => rfl) rfl (fun b => ?_) (.inr (.inl ⟨ha, hlt, rfl⟩))⟩
  · rw [MemoryManager.access, h.getFromMemory_of_not_mem ha]
    simp only [MemoryManager.freePosition, if_neg hfull, ok_bind]
    rw [heq]
    rfl
  · simp [or_comm]

/-- An access to a page that is not in memory, when memory is full and the policy finds `p`. -/
theorem Layout.access_evict {h₁ : Heap} {s₁ : σ} {p : PageRef} {V : PageRef → Prop}
    (h : Layout n m slots) (ha : a ∉ slots) (hlen : slots.length = n) (hp : p ∈ slots)
    (hfind : P.findPageToEvict m.policy m.heap (slots.map some) = .ok (some p, h₁, s₁))
    (htimes : ∀ q, h₁.time q = m.heap.time q) (hclock : h₁.clock = m.heap.clock)
    (hdisk : h₁.disk = m.heap.disk)
    (hpages : ∀ q, q ∉ slots → q ∉ m.heap.disk → h₁.page q = m.heap.page q) (hV : V p) :
    ∃ m' slots', m.access P a = .ok (m', .fault (some p)) ∧ Layout n m' slots' ∧ m'.policy = s₁ ∧
      (∀ q, (m'.heap.page q).hints = (h₁.page q).hints) ∧
      Serves n a (.fault (some p)) slots slots' V m.heap.time m'.heap.time := by
  -- The page evicted only gets its counter increased.
  have hevict : ∀ q, (h₁.updateEvictStats p).time q = h₁.time q ∧
      ((h₁.updateEvictStats p).page q).hints = (h₁.page q).hints := fun q => by
    rw [Heap.time, Heap.updateEvictStats, Heap.modify_page]
    split_ifs with hq
    · rw [hq]
      exact ⟨rfl, rfl⟩
    · exact ⟨rfl, rfl⟩
  have h₂ : Layout n { m with heap := h₁.updateEvictStats p, policy := s₁ } slots := by
    refine h.congr rfl rfl hdisk hclock (fun q hq => ?_) fun q =>
      (hevict q).1.trans (htimes q)
    have hqp : q ≠ p := by
      rintro rfl
      exact hq (h.disk q hp)
    exact (Heap.modify_page_of_ne _ _ hqp).trans (hpages q (fun hqs => hq (h.disk q hqs)) hq)
  obtain ⟨m', slots', heq, hpol, hr, h', hmem⟩ := h₂.replace hlen hp ha
  refine ⟨m', slots', ?_, h', hpol, fun q => (hr.hints q).trans (hevict q).2,
    h.serves h' hr Nat.two_pos (fun q => (hevict q).1.trans (htimes q)) hclock (fun b => ?_)
      (.inr (.inr ⟨p, hp, ha, hlen, rfl, hV⟩))⟩
  · have hfull := h.isFull_iff.2 hlen
    rw [MemoryManager.access, h.getFromMemory_of_not_mem ha]
    simp only [MemoryManager.freePosition, hfull, if_true, h.memory_of_full hlen, hfind, ok_bind,
      deref_some, pure_eq_ok]
    rw [← h.memory_of_full hlen]
    rw [heq]
    rfl
  · rw [hmem]
    simp [eq_comm]

/-- An access to a page that is not in memory, when memory is full. -/
theorem access_full (hI : Evicts n P I C) (h : Layout n m slots) (hm : I m.policy m.heap)
    (ha : a ∉ slots) (hlen : slots.length = n) (h0 : 0 < n) :
    ∃ m' p slots', m.access P a = .ok (m', .fault (some p)) ∧ Layout n m' slots' ∧
      I m'.policy m'.heap ∧
      Serves n a (.fault (some p)) slots slots' (C m.heap slots) m.heap.time m'.heap.time := by
  have hne : slots ≠ [] := List.ne_nil_of_length_pos (hlen ▸ h0)
  obtain ⟨p, hp, h₁, s₁, hfind, hC, hm₁, htimes, hclock, hdisk, hpages⟩ :=
    hI.find m.policy m.heap slots hm hlen hne h.time_le
  obtain ⟨m', slots', heq, h', hpol, hhints, hserves⟩ :=
    h.access_evict ha hlen hp hfind htimes hclock hdisk hpages hC
  refine ⟨m', p, slots', heq, h', ?_, hserves⟩
  rw [hpol]
  exact hI.congr _ _ _ hm₁ hhints

/-- An access serves the page as a memory that evicts a page the policy allows. -/
theorem access_serves (hI : Evicts n P I C) (h0 : 0 < n) (h : Layout n m slots)
    (hm : I m.policy m.heap) (a : ℤ) :
    ∃ m' o slots', m.access P a = .ok (m', o) ∧ Layout n m' slots' ∧ I m'.policy m'.heap ∧
      Serves n a o slots slots' (C m.heap slots) m.heap.time m'.heap.time := by
  by_cases ha : a ∈ slots
  · obtain ⟨m', heq, h'⟩ := access_hit hI h hm ha
    exact ⟨m', _, _, heq, h'⟩
  · rcases h.length_le.lt_or_eq with hlt | hlen
    · obtain ⟨m', heq, h'⟩ := access_free hI h hm ha hlt
      exact ⟨m', _, _, heq, h'⟩
    · obtain ⟨m', p, slots', heq, h'⟩ := access_full hI h hm ha hlen h0
      exact ⟨m', _, slots', heq, h'⟩

end access

end Mcpq.Simulator
