import Mcpq.Hierarchical.Reachable
import Mcpq.Simulator.LruStack

/-!
# The hierarchical manager without hints

Without user chains, every page is on the default chain (`Plain`), and an access serves the page as
a memory that evicts the page of least timestamp (`Plain.access_serves`). The manager is then the
LRU stack of its capacity, and so is the manager of the simulator with its LRU policy:
`accessRun_eq_lruRun` compares the two.
-/

namespace Mcpq.Hierarchical

namespace HierarchicalMemoryManager

/-- The addresses of the pages in memory. -/
def addresses (s : HierarchicalMemoryManager) : List ℤ :=
  s.residents.map fun r => (s.heap.page r).address

/-- There are no user chains, and every page in memory is on the default chain. -/
structure Plain (n : ℕ) (s : HierarchicalMemoryManager) : Prop where
  rep : ∃ L, s.Rep L ∧ ∀ d, d ≠ SystemQueue.default.ordinal → L d = []
  settled : s.Settled
  size_eq : s.size = n
  usrChains_eq : s.usrChains = []
  assigned_eq : ∀ r, (s.heap.page r).assigned = -1

variable {n : ℕ} {s s' : HierarchicalMemoryManager} {a : ℤ} {p r : PageRef}

theorem mem_addresses : a ∈ s.addresses ↔ ∃ r, s.Resident r ∧ (s.heap.page r).address = a := by
  rw [addresses, List.mem_map]
  simp only [StoreOk.mem_residents]

theorem StoreOk.nodup_addresses (hs : s.StoreOk) : s.addresses.Nodup :=
  hs.nodup_residents.map_on fun _ hr _ hq h =>
    hs.address_inj _ (hs.lt_fresh (StoreOk.mem_residents.1 hr)) _
      (hs.lt_fresh (StoreOk.mem_residents.1 hq)) h

theorem length_addresses (s : HierarchicalMemoryManager) :
    s.addresses.length = s.residents.length :=
  List.length_map _

namespace Plain

/-- An access to a page in memory. -/
theorem access_hit (h : Plain n s) (hp : s.Resident p) :
    ∃ s', s.access s.usrChains (s.heap.page p).address = .ok (s', .hit) ∧ Plain n s' ∧
      Serves n (s.heap.page p).address .hit s.addresses s'.addresses
        (Oldest s.stampAt s.addresses) s.stampAt s'.stampAt := by
  obtain ⟨L, hs, hL⟩ := h.rep
  obtain ⟨s', heq, hs', hhit, -⟩ := hs.access_hit (hs.mem_resides h.settled hp).1 s.usrChains
  have hres : ∀ r, s'.Resident r ↔ s.Resident r := fun r => by
    rw [Resident, Resident, hhit.memory_eq]
  have hmem : ∀ b, b ∈ s'.addresses ↔ b ∈ s.addresses := fun b => by
    simp only [mem_addresses, hres, hhit.address_eq]
  refine ⟨s', heq, ⟨⟨L, hs', hL⟩, fun r hr => ?_, ?_, hhit.usrChains_eq.trans h.usrChains_eq,
    fun r => (hhit.assigned_eq r).trans (h.assigned_eq r)⟩, hs'.store.nodup_addresses,
    fun b => ?_, .inl ⟨mem_addresses.2 ⟨p, hp, rfl⟩, rfl⟩, fun b hb _ hba => ?_, fun b hb hba => ?_⟩
  · rw [hhit.resides_eq]
    exact h.settled r ((hres r).1 hr)
  · rw [hhit.rest]
    exact h.size_eq
  · rw [hmem]
    simp only [ne_eq, reduceCtorEq, not_false_eq_true, and_true, iff_or_self]
    rintro rfl
    exact mem_addresses.2 ⟨p, hp, rfl⟩
  · obtain ⟨r, hr, rfl⟩ := mem_addresses.1 hb
    have hrp : r ≠ p := by
      rintro rfl
      exact hba rfl
    exact stampAt_of_ne hs.store hs'.store hr ((hres r).2 hr) (hhit.address_eq r)
      (by rw [hhit.page_of_ne hrp])
  · obtain ⟨r, hr, rfl⟩ := mem_addresses.1 hb
    rw [hs.store.stampAt_eq hr, ← hhit.address_eq p, hs'.store.stampAt_eq ((hres p).2 hp),
      hhit.timestamp_eq]
    exact Nat.lt_succ_of_le (hs.store.stamp_le r (hs.store.lt_fresh hr))

/-- The frame for a page that is not in memory. -/
theorem allocs (h : Plain n s) {L L₁ : ℤ → List PageRef} {s₁ : HierarchicalMemoryManager}
    {v : Option PageRef} (hs : s.Rep L) (hL : ∀ d, d ≠ SystemQueue.default.ordinal → L d = [])
    (hal : Allocs s L s₁ L₁ v) :
    (∀ d, d ≠ SystemQueue.default.ordinal → L₁ d = []) ∧
      (s.addresses.length < n ∧ v = none ∨ ∃ q, s.Resident q ∧ s.addresses.length = n ∧
        v = some q ∧ ∀ r, s.Resident r → (s.heap.page q).timestamp ≤ (s.heap.page r).timestamp) := by
  have hlen := hs.store.length_residents_lt_iff
  have hle := hs.store.length_residents_le
  rw [h.size_eq] at hlen hle
  rw [length_addresses]
  cases hal with
  | free hfree => exact ⟨hL, .inl ⟨hlen.2 hfree, rfl⟩⟩
  | @evict _ id q hfull he =>
    have hch := he.chosen
    have hfull' : s.residents.length = n := by
      rw [← hlen] at hfull
      omega
    -- Only the default chain has pages.
    have hid : id = SystemQueue.default.ordinal := by
      by_contra hne
      exact List.not_mem_nil (hL id hne ▸ hch.mem)
    subst hid
    refine ⟨fun d hd => by rw [Function.update_of_ne hd, hL d hd], .inr ⟨q, hs.mem_resident hch.mem,
      hfull', rfl, fun r hr => ?_⟩⟩
    have hmem : r ∈ L SystemQueue.default.ordinal := by
      have hr' := (hs.mem_resides h.settled hr).1
      by_contra hne
      have hres : (s.heap.page r).resides ≠ SystemQueue.default.ordinal := fun he => hne (he ▸ hr')
      rw [hL _ hres] at hr'
      exact List.not_mem_nil hr'
    generalize hd : SystemQueue.default.ordinal = d at hch hmem
    cases hch with
    | hated => exact absurd hd (by decide)
    | spillover => exact absurd hd (by decide)
    | default _ _ _ hle => exact hle r hmem
    | user _ _ hmem => exact absurd (h.usrChains_eq ▸ hmem) List.not_mem_nil

/-- An access to a page that is not in memory. -/
theorem access_fault (h : Plain n s) (h0 : 0 < n)
    (hn : ∀ r, s.Resident r → (s.heap.page r).address ≠ a) :
    ∃ s' o, s.access s.usrChains a = .ok (s', o) ∧ Plain n s' ∧
      Serves n a o s.addresses s'.addresses (Oldest s.stampAt s.addresses) s.stampAt
        s'.stampAt := by
  obtain ⟨L, hs, hL⟩ := h.rep
  have hhome : s.homeChain a = SystemQueue.default.ordinal := by
    rw [homeChain]
    split
    · rw [h.assigned_eq]
      rfl
    · rfl
  obtain ⟨s', s₁, L₁, v, p, heq, hal, hf, hs', -⟩ :=
    hs.access_fault h.settled (h.size_eq ▸ h0) (fun _ => Iff.rfl) hn (hhome ▸ .inl (by decide))
  obtain ⟨hL₁, hv⟩ := h.allocs hs hL hal
  rw [hhome] at hs'
  have hstamp : (s'.heap.page p).timestamp = s.heap.clock.current + 2 := by
    rw [hf.timestamp_eq, hal.frees.clock_eq]
  have hres : ∀ r, s'.Resident r ↔ r = p ∨ s.Resident r ∧ v ≠ some r := fun r => by
    rw [hf.resident_iff, hal.frees.resident_iff hs]
  have haddr : ∀ r, r ≠ p → (s'.heap.page r).address = (s.heap.page r).address := fun r hr => by
    rw [hf.address_of_ne hr, hal.frees.address_eq]
  have hp : s'.Resident p := (hres p).2 (.inl rfl)
  have hmem : ∀ b, b ∈ s'.addresses ↔ b = a ∨ b ∈ s.addresses ∧
      v.map (fun q => (s.heap.page q).address) ≠ some b := by
    intro b
    simp only [mem_addresses, hres]
    constructor
    · rintro ⟨r, rfl | ⟨hr, hvr⟩, rfl⟩
      · exact .inl hf.address_eq
      · by_cases hrp : r = p
        · exact .inl (hrp ▸ hf.address_eq)
        · refine .inr ⟨⟨r, hr, (haddr r hrp).symm⟩, ?_⟩
          rintro hva
          obtain ⟨q, rfl, hq⟩ := Option.map_eq_some_iff.1 hva
          rw [haddr r hrp] at hq
          have hqr := hs.store.address_inj q
            (hs.store.lt_fresh (hal.frees.victim_resident hs rfl)) r (hs.store.lt_fresh hr) hq
          exact hvr (congrArg some hqr)
    · rintro (rfl | ⟨⟨r, hr, rfl⟩, hva⟩)
      · exact ⟨p, .inl rfl, hf.address_eq⟩
      · have hrp := hal.frees.ne_loaded hs hn hf.page hr
        exact ⟨r, .inr ⟨hr, fun hvr => hva (by rw [hvr]; rfl)⟩, haddr r hrp⟩
  refine ⟨s', _, heq, ⟨⟨_, hs', fun d hd => ?_⟩, fun r hr => ?_, ?_, ?_, fun r => ?_⟩,
    hs'.store.nodup_addresses, fun b => ?_, .inr ?_, fun b hb hb' hba => ?_, fun b hb hba => ?_⟩
  · rw [Function.update_of_ne hd, hL₁ d hd]
  · rw [hf.resides_eq]
    split_ifs with hrp
    · rw [hal.frees.homeChain_eq hs hn, hhome]
      decide
    · exact hal.frees.settled hs h.settled r ((hf.resident_iff.1 hr).resolve_left hrp)
  · rw [hf.size_eq, hal.frees.size_eq, h.size_eq]
  · rw [hf.usrChains_eq, hal.frees.usrChains_eq, h.usrChains_eq]
  · rw [hf.assigned_eq, hal.frees.assigned_eq, h.assigned_eq]
  · rw [hmem]
    simp
  · have ha : a ∉ s.addresses := fun ha => by
      obtain ⟨r, hr, har⟩ := mem_addresses.1 ha
      exact hn r hr har
    rcases hv with ⟨hlt, rfl⟩ | ⟨q, hq, hlen, rfl, hle⟩
    · exact .inl ⟨ha, hlt, rfl⟩
    · refine .inr ⟨_, mem_addresses.2 ⟨q, hq, rfl⟩, ha, hlen, rfl, fun b hb => ?_⟩
      obtain ⟨r, hr, rfl⟩ := mem_addresses.1 hb
      rw [hs.store.stampAt_eq hq, hs.store.stampAt_eq hr]
      exact hle r hr
  · obtain ⟨r, hr, rfl⟩ := mem_addresses.1 hb
    have hrp := hal.frees.ne_loaded hs hn hf.page hr
    obtain ⟨q, hq, hqr⟩ := mem_addresses.1 hb'
    have hqp : q ≠ p := by
      rintro rfl
      exact hba (hqr.symm.trans hf.address_eq)
    -- The page of the address is still the same.
    obtain rfl : q = r := by
      rw [haddr q hqp] at hqr
      have hq' := ((hres q).1 hq).resolve_left hqp
      exact hs.store.address_inj q (hs.store.lt_fresh hq'.1) r (hs.store.lt_fresh hr) hqr
    exact stampAt_of_ne hs.store hs'.store hr hq (haddr q hqp)
      (by rw [hf.timestamp_of_ne hqp, hal.frees.timestamp_eq])
  · obtain ⟨r, hr, rfl⟩ := mem_addresses.1 hb
    rw [hs.store.stampAt_eq hr, ← hf.address_eq, hs'.store.stampAt_eq hp, hstamp]
    exact (hs.store.stamp_le r (hs.store.lt_fresh hr)).trans_lt (by omega)

theorem access_serves (h : Plain n s) (h0 : 0 < n) (a : ℤ) :
    ∃ s' o, s.access s.usrChains a = .ok (s', o) ∧ Plain n s' ∧
      Serves n a o s.addresses s'.addresses (Oldest s.stampAt s.addresses) s.stampAt
        s'.stampAt := by
  by_cases ha : ∃ r, s.Resident r ∧ (s.heap.page r).address = a
  · obtain ⟨p, hp, rfl⟩ := ha
    obtain ⟨s', heq, h'⟩ := h.access_hit hp
    exact ⟨s', _, heq, h'⟩
  · push Not at ha
    exact h.access_fault h0 ha

theorem make (n : ℕ) (clock : LogicalClock) (draws : ℕ → ℕ) :
    Plain n (HierarchicalMemoryManager.make n clock draws) :=
  ⟨⟨_, .make n clock draws, fun _ _ => rfl⟩, Rep.settled_make n clock draws, rfl, rfl, fun _ => rfl⟩

theorem lookup_iff (h : Plain n s) : s.pageTable.lookup a ≠ -1 ↔ a ∈ s.addresses := by
  obtain ⟨L, hs, -⟩ := h.rep
  rw [Ne, hs.store.lookup_eq_neg_one_iff, mem_addresses]
  push Not
  rfl

/-- The pages in memory are the LRU stack `l`. -/
def IsStack (n : ℕ) (s : HierarchicalMemoryManager) (l : List ℤ) : Prop :=
  Plain n s ∧ OrderedBy s.stampAt l ∧ l.Perm s.addresses

theorem isStack_make (n : ℕ) (clock : LogicalClock) (draws : ℕ → ℕ) :
    IsStack n (HierarchicalMemoryManager.make n clock draws) [] := by
  refine ⟨.make n clock draws, .nil, ?_⟩
  simp [addresses, residents, HierarchicalMemoryManager.make, Memory.empty,
    List.reduceOption_replicate_none]

theorem isStack_access (h0 : 0 < n) {l : List ℤ} (hs : IsStack n s l) (a : ℤ) :
    ∃ s', s.access s.usrChains a = .ok (s', outcome n l a) ∧ IsStack n s' (touch n l a) := by
  obtain ⟨h, hord, hperm⟩ := hs
  obtain ⟨s', o, heq, h', hserves⟩ := h.access_serves h0 a
  obtain ⟨L, hs, -⟩ := h.rep
  have hle : s.addresses.length ≤ n := by
    rw [length_addresses, ← h.size_eq]
    exact hs.store.length_residents_le
  obtain ⟨rfl, hord', hperm'⟩ := hord.serves hperm hle h0 hserves
  exact ⟨s', heq, h', hord', hperm'⟩

end Plain

end HierarchicalMemoryManager

open HierarchicalMemoryManager

/-- A run of accesses on a new manager of capacity `n`. -/
def accessRun (n : ℕ) (clock : LogicalClock) (draws : ℕ → ℕ) (as : List ℤ) :
    Java (HierarchicalMemoryManager × List (Outcome ℤ)) :=
  runAccesses (fun _ s a => s.access s.usrChains a) 0 (.make n clock draws) as

/-- Without hints, the hierarchical manager faults, and evicts, as the manager of the simulator with
    its LRU policy, and is left with the same pages in memory. -/
theorem accessRun_eq_lruRun {n : ℕ} (h0 : 0 < n) (clock clock' : LogicalClock) (draws : ℕ → ℕ)
    (as : List ℤ) :
    ∃ s m os, accessRun n clock draws as = .ok (s, os) ∧
      Simulator.lruRun n clock' as = .ok (m, os) ∧
      ∀ a, s.pageTable.lookup a ≠ -1 ↔ (m.getFromMemory a).isSome = true := by
  obtain ⟨s, heq, hs, -, hperm⟩ := runAccesses_lru (R := fun _ => Plain.IsStack n)
    (fun _ _ _ a _ hs => Plain.isStack_access h0 hs a) (i := 0) as
    (Plain.isStack_make n clock draws)
  obtain ⟨m, heq', hm⟩ := Simulator.lru_outcomes h0 clock' as
  refine ⟨s, m, _, heq, heq', fun a => ?_⟩
  rw [hs.lookup_iff, hm, hperm.mem_iff]

/-- A run with an eviction. -/
theorem accessRun_eq_lruRun_two :
    ∃ s m os, accessRun 2 {} (fun _ => 0) [1, 2, 1, 3, 2] = .ok (s, os) ∧
      Simulator.lruRun 2 {} [1, 2, 1, 3, 2] = .ok (m, os) ∧
      ∀ a, s.pageTable.lookup a ≠ -1 ↔ (m.getFromMemory a).isSome = true :=
  accessRun_eq_lruRun (by decide) {} {} _ _

end Mcpq.Hierarchical
