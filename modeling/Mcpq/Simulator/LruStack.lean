import Mcpq.Simulator.Layout
import Mcpq.Simulator.Policies

/-!
# The simulator as an LRU stack

A memory manager whose policy always finds the page of least time (`EvictsLeast`) serves accesses as
the LRU stack does (`runAccesses_least`).

* `lru_outcomes`: the manager with `LRUReplacementPolicy` has the outcomes of the LRU stack of its
  capacity, and its memory holds the pages of the stack;
* `lru_inclusion`: a larger memory holds the pages of a smaller one, and misses at most as often.
-/

namespace Mcpq.Simulator

section least

variable {σ : Type} {P : IPageReplacementPolicy σ} {I : σ → Heap → Prop} {n : ℕ}
  {m : MemoryManager σ} {a : ℤ}

/-- In the states and heaps `I`, the policy finds the page of least time of a full memory. -/
def EvictsLeast (n : ℕ) (P : IPageReplacementPolicy σ) (I : σ → Heap → Prop) : Prop :=
  Evicts n P I fun h => Oldest h.time

/-- The memory of the manager is the LRU stack `l`. -/
def IsStack (n : ℕ) (I : σ → Heap → Prop) (m : MemoryManager σ) (l : List ℤ) : Prop :=
  ∃ slots, Layout n m slots ∧ I m.policy m.heap ∧ OrderedBy m.heap.time l ∧ l.Perm slots

theorem isStack_access (hI : EvictsLeast n P I) (h0 : 0 < n) {l : List ℤ} (hs : IsStack n I m l)
    (a : ℤ) : ∃ m', m.access P a = .ok (m', outcome n l a) ∧ IsStack n I m' (touch n l a) := by
  obtain ⟨slots, h, hm, hord, hperm⟩ := hs
  obtain ⟨m', o, slots', heq, h', hm', hserves⟩ := access_serves hI h0 h hm a
  obtain ⟨rfl, hord', hperm'⟩ := hord.serves hperm h.length_le h0 hserves
  exact ⟨m', heq, slots', h', hm', hord', hperm'⟩

theorem IsStack.mem_iff {l : List ℤ} (hs : IsStack n I m l) :
    (m.getFromMemory a).isSome = true ↔ a ∈ l := by
  obtain ⟨slots, h, -, -, hperm⟩ := hs
  rw [h.getFromMemory_isSome, hperm.mem_iff]

/-- A manager whose policy evicts the page of least time has the outcomes of the LRU stack. -/
theorem runAccesses_least (hI : EvictsLeast n P I) (h0 : 0 < n) (policy : σ)
    (clock : LogicalClock) (hinit : I policy { clock }) (as : List ℤ) :
    ∃ m, runAccesses (fun _ m a => m.access P a) 0 (.make policy n clock) as =
        .ok (m, lruOutcomes n [] as) ∧ IsStack n I m (lruStack n [] as) :=
  runAccesses_lru (R := fun _ => IsStack n I) (fun _ _ _ a _ hs => isStack_access hI h0 hs a) as
    ⟨[], .make policy clock, hinit, .nil, .nil⟩

end least

/-! ## LRU -/

/-- A search for the page of least time finds one. -/
theorem foldl_keepLeast_time {h : Heap} {pages : List PageRef} (hne : pages ≠ [])
    (htime : ∀ p ∈ pages, h.time p ≤ h.clock.current) :
    ∃ p ∈ pages, pages.foldl (keepLeast h.time) (h.clock.current + 1, none) =
        (h.time p, some p) ∧ Oldest h.time pages p := by
  obtain ⟨a, ha⟩ := List.exists_mem_of_ne_nil _ hne
  obtain ⟨p, hp, heq, -, hle⟩ := foldl_keepLeast_of_lt h.time none
    ⟨a, ha, Nat.lt_succ_of_le (htime a ha)⟩
  exact ⟨p, hp, heq, hle⟩

/-- LRU finds the page of least time, and writes nothing. -/
theorem lru_find {h : Heap} {pages : List PageRef} (hne : pages ≠ [])
    (htime : ∀ p ∈ pages, h.time p ≤ h.clock.current) :
    ∃ p ∈ pages, lruReplacementPolicy.findPageToEvict () h (pages.map some) =
      .ok (some p, h, ()) ∧ Oldest h.time pages p := by
  obtain ⟨p, hp, heq, hle⟩ := foldl_keepLeast_time hne htime
  refine ⟨p, hp, ?_, hle⟩
  change LRUReplacementPolicy.findPageToEvict () h (pages.map some) = _
  rw [LRUReplacementPolicy.findPageToEvict, foldlM_deref]
  change (Except.ok (pages.foldl (keepLeast h.time) (h.clock.current + 1, none)) >>= _) = _
  rw [heq]
  rfl

theorem lru_evictsLeast {n : ℕ} : EvictsLeast n lruReplacementPolicy fun _ _ => True := by
  refine ⟨fun _ h pages _ _ hne htime => ?_, fun _ _ _ _ _ => trivial⟩
  obtain ⟨p, hp, heq, hle⟩ := lru_find hne htime
  exact ⟨p, hp, h, (), heq, hle, trivial, fun _ => rfl, rfl, rfl, fun _ _ _ => rfl⟩

/-- A run of accesses on a new manager of capacity `n` with `LRUReplacementPolicy`. -/
def lruRun (n : ℕ) (clock : LogicalClock) (as : List ℤ) :
    Java (MemoryManager Unit × List (Outcome ℤ)) :=
  runAccesses (fun _ m a => m.access lruReplacementPolicy a) 0 (.make () n clock) as

/-- The manager with `LRUReplacementPolicy` is the LRU stack. -/
theorem lru_outcomes {n : ℕ} (h0 : 0 < n) (clock : LogicalClock) (as : List ℤ) :
    ∃ m, lruRun n clock as = .ok (m, lruOutcomes n [] as) ∧
      ∀ a, (m.getFromMemory a).isSome = true ↔ a ∈ lruStack n [] as := by
  obtain ⟨m, heq, hs⟩ := runAccesses_least lru_evictsLeast h0 () clock trivial as
  exact ⟨m, heq, fun a => hs.mem_iff⟩

/-- The inclusion property: the pages in a memory are in a larger one, which does not miss more
    often. -/
theorem lru_inclusion {n n' : ℕ} (h0 : 0 < n) (hle : n ≤ n') (clock clock' : LogicalClock)
    (as : List ℤ) :
    ∃ m m' os os', lruRun n clock as = .ok (m, os) ∧ lruRun n' clock' as = .ok (m', os') ∧
      (∀ a, (m.getFromMemory a).isSome = true → (m'.getFromMemory a).isSome = true) ∧
      faults os' ≤ faults os := by
  obtain ⟨m, heq, hm⟩ := lru_outcomes h0 clock as
  obtain ⟨m', heq', hm'⟩ := lru_outcomes (h0.trans_le hle) clock' as
  refine ⟨m, m', _, _, heq, heq', fun a ha => ?_, ?_⟩
  · rw [hm, ← List.take_nil, lruStack_take hle] at ha
    exact (hm' a).2 (List.mem_of_mem_take ha)
  · simpa using faults_le hle [] as

/-- Belady's anomaly does not occur on this run. -/
theorem lru_inclusion_three :
    ∃ m m' os os', lruRun 2 {} [1, 2, 3, 1, 2] = .ok (m, os) ∧
      lruRun 3 {} [1, 2, 3, 1, 2] = .ok (m', os') ∧
      (∀ a, (m.getFromMemory a).isSome = true → (m'.getFromMemory a).isSome = true) ∧
      faults os' ≤ faults os :=
  lru_inclusion (by decide) (by decide) {} {} [1, 2, 3, 1, 2]

end Mcpq.Simulator
