import Mcpq.Simulator.PageObjects

/-!
# Pages known by their addresses

The manager of page objects does what the manager does that knows a page by its address, when the
reference of each page object is its address (`Agrees.run`): what is proved of the latter holds of the
former. With LRU, the manager of page objects is the LRU stack (`object_lru_outcomes`).
-/

namespace Mcpq.Simulator

/-- The manager of page objects is the manager whose page objects are known by their addresses. -/
structure Agrees {σ : Type} (m : ObjectManager σ) (m' : MemoryManager σ) : Prop where
  policy_eq : m.policy = m'.policy
  memory_eq : m.memory = m'.memory
  pointer_eq : m.memoryPointer = m'.memoryPointer
  heap_eq : m.heap = m'.heap
  disk_eq : m.disk = m'.heap.disk.map fun p => (p, p)
  address_eq : ∀ p ∈ m'.heap.disk, m.address p = p
  mem_disk : ∀ p, some p ∈ m'.memory → p ∈ m'.heap.disk

theorem lookup_map_self (l : List PageRef) (a : ℤ) :
    (l.map fun p => (p, p)).lookup a = if a ∈ l then some a else none := by
  induction l with
  | nil => rfl
  | cons b l ih =>
    rw [List.map_cons, List.lookup_cons, ih]
    by_cases hab : a = b
    · simp [hab]
    · simp [beq_false_of_ne hab, hab]

theorem findIdx?_congr {α : Type} {p q : α → Bool} {l : List α} (h : ∀ x ∈ l, p x = q x) :
    l.findIdx? p = l.findIdx? q := by
  induction l with
  | nil => rfl
  | cons a l ih =>
    rw [List.findIdx?_cons, List.findIdx?_cons, h a List.mem_cons_self,
      ih fun x hx => h x (List.mem_cons_of_mem _ hx)]

namespace Agrees

variable {σ : Type} {P : IPageReplacementPolicy σ} {m : ObjectManager σ} {m' m₁' : MemoryManager σ}
  {a : ℤ} {p : PageRef} {o : Outcome ℤ}

theorem make (policy : σ) (n : ℕ) (clock : LogicalClock) :
    Agrees (.make policy n clock) (.make policy n clock) :=
  ⟨rfl, rfl, rfl, rfl, rfl, by simp [MemoryManager.make], by simp [MemoryManager.make]⟩

/-- A page in memory has the address of another one if it is that one. -/
theorem any_eq (h : Agrees m m') (a : ℤ) (x : Option PageRef) (hx : x ∈ m'.memory) :
    x.any (m.address · == a) = (x == some a) := by
  cases x with
  | none => rfl
  | some p => rw [Option.any_some, h.address_eq p (h.mem_disk p hx)]; rfl

theorem getFromMemory (h : Agrees m m') (a : ℤ) : m.getFromMemory a = m'.getFromMemory a := by
  rw [ObjectManager.getFromMemory, MemoryManager.getFromMemory, h.memory_eq,
    List.find?_congr (h.any_eq a)]

theorem evict (h : Agrees m m') (hp : p ∈ m'.heap.disk) : m.evict p = m'.evict p := by
  have hfind := findIdx?_congr (h.any_eq p)
  rw [ObjectManager.evict, MemoryManager.evict, h.memory_eq, h.address_eq p hp]
  cases hi : m'.memory.findIdx? (· == some p) with
  | none => simp only [hfind.trans hi]
  | some i => simp only [hfind.trans hi]

theorem freePosition (h : Agrees m m')
    (hfind : m'.isFull = true → ∀ p heap policy, P.findPageToEvict m'.policy m'.heap m'.memory =
      .ok (some p, heap, policy) → some p ∈ m'.memory ∧ heap.disk = m'.heap.disk)
    {i : ℤ} {v : Option PageRef} (heq : m'.freePosition P = .ok (m₁', i, v)) :
    ∃ m₁, m.freePosition P = .ok (m₁, i, v) ∧ Agrees m₁ m₁' := by
  have hfull : m.memory.length ≤ m.memoryPointer ↔ m'.isFull = true := by
    rw [MemoryManager.isFull, decide_eq_true_iff, h.memory_eq, h.pointer_eq]
  rw [MemoryManager.freePosition] at heq
  split_ifs at heq with hm'
  · obtain ⟨⟨page, heap, policy⟩, hr, heq⟩ := bind_eq_ok heq
    cases page with
    | none => cases heq
    | some p =>
      obtain ⟨hp, hdisk⟩ := hfind hm' p heap policy hr
      have h₁ : Agrees { m with heap := heap.updateEvictStats p, policy }
          { m' with heap := heap.updateEvictStats p, policy } :=
        ⟨rfl, h.memory_eq, h.pointer_eq, rfl, h.disk_eq.trans (by rw [← hdisk]; rfl),
          fun q hq => h.address_eq q (hdisk ▸ hq), fun q hq => hdisk ▸ h.mem_disk q hq⟩
      obtain ⟨rfl, hrest⟩ := Prod.mk.inj (Except.ok.inj heq)
      obtain ⟨rfl, rfl⟩ := Prod.mk.inj hrest
      have hr' : P.findPageToEvict m.policy m.heap m.memory = .ok (some p, heap, policy) := by
        rwa [h.policy_eq, h.heap_eq, h.memory_eq]
      have hpd := h.mem_disk p hp
      refine ⟨_, ?_, h₁⟩
      rw [ObjectManager.freePosition, if_pos (hfull.2 hm')]
      simp only [hr', ok_bind, deref_some, pure_eq_ok]
      rw [← h₁.evict (show p ∈ heap.disk from hdisk ▸ hpd), h.address_eq p hpd]
  · obtain ⟨rfl, hrest⟩ := Prod.mk.inj (Except.ok.inj heq)
    obtain ⟨rfl, rfl⟩ := Prod.mk.inj hrest
    refine ⟨{ m with memoryPointer := m.memoryPointer + 1 }, ?_, ⟨h.policy_eq, h.memory_eq,
      congrArg (· + 1) h.pointer_eq, h.heap_eq, h.disk_eq, h.address_eq, h.mem_disk⟩⟩
    rw [ObjectManager.freePosition, if_neg (mt hfull.1 hm'), h.pointer_eq]

theorem loadTo (h : Agrees m m') {i : ℤ} (heq : m'.loadTo i a = .ok m₁') :
    ∃ m₁, m.loadTo a i a = .ok m₁ ∧ Agrees m₁ m₁' := by
  obtain ⟨m₁, m₂', hget, hget', h₁, ha⟩ : ∃ m₁ m₂', m.getFromDisk a a = (m₁, a) ∧
      m'.getFromDisk a = (m₂', a) ∧ Agrees m₁ m₂' ∧ a ∈ m₂'.heap.disk := by
    rw [ObjectManager.getFromDisk, MemoryManager.getFromDisk, h.disk_eq, lookup_map_self]
    split_ifs with ha
    · exact ⟨m, m', rfl, rfl, h, ha⟩
    · refine ⟨_, _, rfl, rfl, ⟨h.policy_eq, h.memory_eq, h.pointer_eq, ?_, rfl, fun p hp => ?_,
        fun p hp => List.mem_cons_of_mem a (h.mem_disk p hp)⟩, List.mem_cons_self⟩
      · rw [h.heap_eq]
      · rcases List.mem_cons.1 hp with rfl | hp
        · exact Function.update_self ..
        · have hpa : p ≠ a := fun hpa => ha (hpa ▸ hp)
          exact (Function.update_of_ne hpa ..).trans (h.address_eq p hp)
  rw [MemoryManager.loadTo, hget'] at heq
  obtain ⟨memory, hset, heq⟩ := bind_eq_ok heq
  obtain rfl := Except.ok.inj heq
  have hset' : arraySet m₁.memory i (some a) = .ok memory := by rwa [h₁.memory_eq]
  refine ⟨{ m₁ with
    heap := (m₁.heap.updateLoadStats a).updateRefStats a, memory }, ?_, h₁.policy_eq, rfl,
    h₁.pointer_eq, ?_, h₁.disk_eq, h₁.address_eq, fun q hq => ?_⟩
  · rw [ObjectManager.loadTo, hget]
    simp only [hset', ok_bind, pure_eq_ok]
  · rw [h₁.heap_eq]
  · rw [arraySet] at hset
    split_ifs at hset
    obtain rfl := Except.ok.inj hset
    rcases List.mem_or_eq_of_mem_set hq with hq | hq
    · exact h₁.mem_disk q hq
    · exact Option.some.inj hq ▸ ha

/-- An access to an address whose page object, if it is created, has the address as its reference. -/
theorem access (h : Agrees m m')
    (hfind : m'.isFull = true → ∀ p heap policy, P.findPageToEvict m'.policy m'.heap m'.memory =
      .ok (some p, heap, policy) → some p ∈ m'.memory ∧ heap.disk = m'.heap.disk)
    (heq : m'.access P a = .ok (m₁', o)) :
    ∃ m₁, m.access P a a = .ok (m₁, o) ∧ Agrees m₁ m₁' := by
  rw [MemoryManager.access] at heq
  rw [ObjectManager.access, h.getFromMemory]
  cases hget : m'.getFromMemory a with
  | some p =>
    rw [hget] at heq
    obtain ⟨rfl, rfl⟩ := Prod.mk.inj (Except.ok.inj heq)
    exact ⟨{ m with heap := m.heap.updateRefStats p }, rfl, h.policy_eq, h.memory_eq,
      h.pointer_eq, by rw [h.heap_eq], h.disk_eq, h.address_eq, h.mem_disk⟩
  | none =>
    rw [hget] at heq
    obtain ⟨⟨m₂', i, v⟩, hfree, heq⟩ := bind_eq_ok heq
    obtain ⟨m₃', hload, heq⟩ := bind_eq_ok heq
    obtain ⟨rfl, rfl⟩ := Prod.mk.inj (Except.ok.inj heq)
    obtain ⟨m₂, hfree', h₂⟩ := h.freePosition hfind hfree
    obtain ⟨m₃, hload', h₃⟩ := h₂.loadTo hload
    refine ⟨m₃, ?_, h₃⟩
    simp only [hfree', hload', ok_bind, pure_eq_ok]

/-- The runs agree for every policy that finds a page whenever memory is full. -/
theorem run {I : σ → Heap → Prop} {C : Heap → List PageRef → PageRef → Prop} {n : ℕ}
    {slots : List PageRef} (hI : Evicts n P I C) (h0 : 0 < n) {i : ℕ} (as : List ℤ)
    (h : Agrees m m') (hl : Layout n m' slots) (hm : I m'.policy m'.heap) :
    ∃ m₁ m₁' os, runAccesses (fun _ m a => m.access P a a) i m as = .ok (m₁, os) ∧
      runAccesses (fun _ m a => m.access P a) i m' as = .ok (m₁', os) ∧ Agrees m₁ m₁' := by
  induction as generalizing m m' slots i with
  | nil => exact ⟨m, m', [], rfl, rfl, h⟩
  | cons a as ih =>
    obtain ⟨m₁', o, slots₁, heq', hl₁, hm₁, -⟩ := access_serves hI h0 hl hm a
    have hfind : m'.isFull = true → ∀ p heap policy,
        P.findPageToEvict m'.policy m'.heap m'.memory = .ok (some p, heap, policy) →
          some p ∈ m'.memory ∧ heap.disk = m'.heap.disk := by
      intro hfull p heap policy hr
      have hlen := hl.isFull_iff.1 hfull
      obtain ⟨q, hq, heap', policy', hr', -, -, -, -, hdisk, -⟩ := hI.find m'.policy m'.heap slots hm
        hlen (List.ne_nil_of_length_pos (hlen ▸ h0)) hl.time_le
      rw [← hl.memory_of_full hlen, hr] at hr'
      obtain ⟨hpq, hrest⟩ := Prod.mk.inj (Except.ok.inj hr')
      obtain ⟨rfl, -⟩ := Prod.mk.inj hrest
      obtain rfl := Option.some.inj hpq
      exact ⟨hl.mem_memory.2 hq, hdisk⟩
    obtain ⟨m₁, heq, h₁⟩ := h.access hfind heq'
    obtain ⟨m₂, m₂', os, heq₂, heq₂', h₂⟩ := ih (i := i + 1) h₁ hl₁ hm₁
    exact ⟨m₂, m₂', o :: os, runAccesses_cons heq heq₂, runAccesses_cons heq' heq₂', h₂⟩

end Agrees

/-- The manager of page objects with `LRUReplacementPolicy` is the LRU stack. -/
theorem object_lru_outcomes {n : ℕ} (h0 : 0 < n) (clock : LogicalClock) (as : List ℤ) :
    ∃ m, runAccesses (fun _ m a => m.access lruReplacementPolicy a a) 0
        (ObjectManager.make () n clock) as = .ok (m, lruOutcomes n [] as) := by
  obtain ⟨m', heq', -⟩ := lru_outcomes h0 clock as
  obtain ⟨m, m₁', os, heq, heq₁', -⟩ :=
    Agrees.run lru_evictsLeast h0 (i := 0) as (.make () n clock) (.make () clock) trivial
  obtain ⟨-, rfl⟩ := Prod.mk.inj (Except.ok.inj (heq₁'.symm.trans heq'))
  exact ⟨m, heq⟩

end Mcpq.Simulator
