import Mcpq.Hierarchical.Storage

/-!
# The representation invariant

The invariant of a manager (`Rep`): the identifiers of its chains, its storage, its chains and the
timestamps these cache. Between two calls, moreover, each page in memory is on a chain (`Settled`).

The cached timestamp of a user chain is not below the timestamps of its members, nor above the
timestamp of its representative — which need not be a member.

What is proved here is that the invariant is kept when a page leaves a chain (`Rep.unlink`), joins
one (`Rep.link`), is assigned (`Rep.assign`), or anchors one (`Rep.setAnchor`), and when a chain is
emptied (`Rep.unchain`), created (`Rep.addChain`) or dropped (`Rep.dropChain`).
-/

namespace Mcpq.Hierarchical

namespace HierarchicalMemoryManager

/-- The invariant of the cached timestamps of the user chains. -/
structure CacheOk (s : HierarchicalMemoryManager) (L : ℤ → List PageRef) : Prop where
  le_clock : ∀ id ∈ s.usrChains, (s.chains id).timestamp ≤ s.heap.clock.current
  le_stamp : ∀ id ∈ s.usrChains, ∀ r ∈ L id,
    (s.heap.page r).timestamp ≤ (s.chains id).timestamp
  representative : ∀ id ∈ s.usrChains, ∀ x, (s.chains id).representative = some x →
    x < s.heap.fresh ∧ (s.chains id).timestamp ≤ (s.heap.page x).timestamp

/-- The invariant of a manager, whose chains hold the pages `L`. -/
structure Rep (s : HierarchicalMemoryManager) (L : ℤ → List PageRef) : Prop where
  ids : s.IdsOk
  store : s.StoreOk
  chains : s.ChainsOk L
  cache : s.CacheOk L
  resident : ∀ r, (s.heap.page r).resides ≠ -1 → s.Resident r

/-- Each page in memory is on a chain. -/
def Settled (s : HierarchicalMemoryManager) : Prop :=
  ∀ r, s.Resident r → (s.heap.page r).resides ≠ -1

theorem IdsOk.moves {s s' : HierarchicalMemoryManager} (hs : s.IdsOk) (hm : Moves s s') :
    s'.IdsOk :=
  ⟨hm.usrChains_eq ▸ hs.nodup, hm.usrChains_eq ▸ hm.chainId_eq ▸ hs.range,
    hm.chainId_eq ▸ hs.three_le⟩

theorem Moves.resident_iff {s s' : HierarchicalMemoryManager} (hm : Moves s s') (r : PageRef) :
    s'.Resident r ↔ s.Resident r := by
  rw [Resident, Resident, hm.memory_eq]

theorem Moves.isChain_iff {s s' : HierarchicalMemoryManager} (hm : Moves s s') (id : ℤ) :
    s'.IsChain id ↔ s.IsChain id := by
  rw [IsChain, IsChain, hm.usrChains_eq]

namespace Rep

variable {s s' : HierarchicalMemoryManager} {L : ℤ → List PageRef} {id : ℤ} {p r : PageRef}

theorem mem_resident (hs : s.Rep L) (hr : r ∈ L id) : s.Resident r := by
  obtain ⟨h₁, h₂⟩ := (hs.chains.mem_iff id r).1 hr
  exact hs.resident r (h₁ ▸ h₂)

theorem lt_fresh (hs : s.Rep L) (hr : r ∈ L id) : r < s.heap.fresh :=
  hs.chains.mem_lt_fresh hr

theorem eq_of_mem (hs : s.Rep L) {d : ℤ} (hr : r ∈ L id) (hr' : r ∈ L d) : id = d :=
  ((hs.chains.mem_iff id r).1 hr).1.symm.trans ((hs.chains.mem_iff d r).1 hr').1

theorem isChain_ne (hs : s.Rep L) (hid : s.IsChain id) : id ≠ -1 := by
  have := hs.ids.isChain_nonneg hid
  omega

theorem nodup (hs : s.Rep L) (id : ℤ) : (L id).Nodup := (hs.chains.holds id).list.nodup

/-- There are no pages on a chain that does not exist. -/
theorem eq_nil_of_not_isChain (hs : s.Rep L) (hid : ¬s.IsChain id) : L id = [] := by
  by_contra hne
  obtain ⟨r, hr⟩ := List.exists_mem_of_ne_nil _ hne
  exact hid (hs.chains.isChain_of_mem hr)

/-- What moves pages keeps the invariant if it keeps that of the chains. -/
theorem moves (hs : s.Rep L) (hm : Moves s s') {L' : ℤ → List PageRef} (hc : s'.ChainsOk L')
    (hcache : s'.CacheOk L')
    (hres : ∀ r, (s'.heap.page r).resides ≠ -1 → s.Resident r) : s'.Rep L' :=
  ⟨hs.ids.moves hm, hs.store.moves hm, hc, hcache, fun r hr => (hm.resident_iff r).2 (hres r hr)⟩

/-- A page leaves a chain. -/
theorem unlink (hs : s.Rep L) (hp : p ∈ L id) :
    (s.chainUnlink id (some p)).Rep (Function.update L id ((L id).erase p)) ∧
      Unlinks s (s.chainUnlink id (some p)) id p := by
  obtain ⟨hc, hu⟩ := hs.chains.unlink hp
  have hsub : ∀ d, ∀ r ∈ Function.update L id ((L id).erase p) d, r ∈ L d := by
    intro d r hr
    by_cases hd : d = id
    · subst hd
      rw [Function.update_self] at hr
      exact List.mem_of_mem_erase hr
    · rwa [Function.update_of_ne hd] at hr
  refine ⟨hs.moves hu.toMoves hc ⟨?_, ?_, ?_⟩ ?_, hu⟩
  · intro d hd
    rw [hu.stamp_eq, hu.clock_eq]
    exact hs.cache.le_clock d (hu.usrChains_eq ▸ hd)
  · intro d hd r hr
    rw [hu.stamp_eq, hu.timestamp_eq]
    exact hs.cache.le_stamp d (hu.usrChains_eq ▸ hd) r (hsub d r hr)
  · intro d hd x hx
    rw [hu.representative_eq] at hx
    split_ifs at hx
    rw [hu.stamp_eq, hu.timestamp_eq, hu.fresh_eq]
    exact hs.cache.representative d (hu.usrChains_eq ▸ hd) x hx
  · intro r hr
    rw [hu.resides_eq] at hr
    split_ifs at hr
    · exact absurd rfl hr
    · exact hs.resident r hr

/-- A page of the memory that is on no chain joins a chain. -/
theorem link (hs : s.Rep L) (hid : s.IsChain id) (hp : s.Resident p)
    (hr : (s.heap.page p).resides = -1) :
    ∃ s', s.chainLink id p = .ok (none, s') ∧ s'.Rep (Function.update L id (p :: L id)) ∧
      Links s s' id p := by
  have hlt := hs.store.lt_fresh hp
  obtain ⟨s', heq, hc, hl⟩ := hs.chains.link hid (hs.isChain_ne hid) hlt hr
  refine ⟨s', heq, hs.moves hl.toMoves hc ⟨?_, ?_, ?_⟩ ?_, hl⟩
  · intro d hd
    rw [hl.stamp_eq, hl.clock_eq]
    split_ifs
    · exact hs.store.stamp_le p hlt
    · exact hs.cache.le_clock d (hl.usrChains_eq ▸ hd)
  · intro d hd r hr
    rw [hl.stamp_eq, hl.timestamp_eq]
    have hle : r ∈ L d → (s.heap.page r).timestamp ≤ (s.chains d).timestamp :=
      hs.cache.le_stamp d (hl.usrChains_eq ▸ hd) r
    by_cases hdi : d = id
    · subst hdi
      rw [Function.update_self] at hr
      simp only [true_and]
      rcases List.mem_cons.1 hr with rfl | hr
      · split_ifs <;> omega
      · have := hle hr
        split_ifs <;> omega
    · rw [Function.update_of_ne hdi] at hr
      simpa [hdi] using hle hr
  · intro d hd x hx
    rw [hl.representative_eq] at hx
    rw [hl.stamp_eq, hl.timestamp_eq, hl.fresh_eq]
    split_ifs at hx ⊢
    · cases hx
      exact ⟨hlt, le_rfl⟩
    · exact hs.cache.representative d (hl.usrChains_eq ▸ hd) x hx
  · intro r hr
    rw [hl.resides_eq] at hr
    split_ifs at hr with h
    · exact h ▸ hp
    · exact hs.resident r hr

/-- A page is assigned to a chain. -/
theorem assign (hs : s.Rep L) (hp : p < s.heap.fresh) (id : ℤ) : (s.assign p id).Rep L := by
  have hm := ChainsOk.assign_moves s p id
  refine hs.moves hm (hs.chains.assign hp) ⟨hs.cache.le_clock, ?_, ?_⟩ ?_
  · intro d hd r hr
    rw [hm.timestamp_eq]
    exact hs.cache.le_stamp d hd r hr
  · intro d hd x hx
    rw [hm.timestamp_eq]
    exact hs.cache.representative d hd x hx
  · intro r hr
    rw [ChainsOk.assign_resides] at hr
    exact hs.resident r hr

end Rep

theorem setAnchor_moves (s : HierarchicalMemoryManager) (id : ℤ) (p : PageRef) :
    Moves s (s.setAnchor id p) :=
  ⟨rfl, fun _ => rfl, rfl, rfl⟩

theorem setAnchor_stamp (s : HierarchicalMemoryManager) (id d : ℤ) (p : PageRef) :
    ((s.setAnchor id p).chains d).timestamp = (s.chains d).timestamp ∧
      ((s.setAnchor id p).chains d).representative = (s.chains d).representative := by
  by_cases hd : d = id
  · subst hd
    simp [setAnchor]
  · simp [setAnchor, hd]

namespace Rep

variable {s s' : HierarchicalMemoryManager} {L : ℤ → List PageRef} {id : ℤ} {p r : PageRef}

/-- A member of a chain becomes its anchor. -/
theorem setAnchor (hs : s.Rep L) (hp : p ∈ L id) : (s.setAnchor id p).Rep L := by
  refine hs.moves (setAnchor_moves s id p) (hs.chains.setAnchor hp) ⟨?_, ?_, ?_⟩ hs.resident
  · intro d hd
    rw [(setAnchor_stamp s id d p).1]
    exact hs.cache.le_clock d hd
  · intro d hd r hr
    rw [(setAnchor_stamp s id d p).1]
    exact hs.cache.le_stamp d hd r hr
  · intro d hd x hx
    rw [(setAnchor_stamp s id d p).2] at hx
    rw [(setAnchor_stamp s id d p).1]
    exact hs.cache.representative d hd x hx

/-- The pages of a chain leave it. -/
theorem unchain (hs : s.Rep L) (hne : id ≠ -1) :
    ∃ h c, (s.chains id).unchain s.heap = .ok ((L id).map some, h, c) ∧
      (s.setChain id h c).Rep (Function.update L id []) ∧ Moves s (s.setChain id h c) ∧
      (∀ q, (h.page q).assigned = (s.heap.page q).assigned) ∧
      (∀ q, (h.page q).resides = if q ∈ L id then -1 else (s.heap.page q).resides) ∧
      ∀ d, ((s.setChain id h c).chains d).timestamp = (s.chains d).timestamp ∧
        ((s.setChain id h c).chains d).representative = (s.chains d).representative := by
  obtain ⟨h, c, heq, hc, hm, ha, hr, ht, hrep⟩ := hs.chains.unchain hne
  have hstamp : ∀ d, ((s.setChain id h c).chains d).timestamp = (s.chains d).timestamp ∧
      ((s.setChain id h c).chains d).representative = (s.chains d).representative := by
    intro d
    by_cases hd : d = id
    · subst hd
      simpa [setChain] using ⟨ht, hrep⟩
    · simp [setChain, hd]
  refine ⟨h, c, heq, hs.moves hm hc ⟨?_, ?_, ?_⟩ ?_, hm, ha, hr, hstamp⟩
  · intro d hd
    rw [(hstamp d).1, hm.clock_eq]
    exact hs.cache.le_clock d hd
  · intro d hd r hrd
    rw [(hstamp d).1, hm.timestamp_eq]
    refine hs.cache.le_stamp d hd r ?_
    by_cases hdi : d = id
    · subst hdi
      simp at hrd
    · rwa [Function.update_of_ne hdi] at hrd
  · intro d hd x hx
    rw [(hstamp d).2] at hx
    rw [(hstamp d).1, hm.timestamp_eq, hm.fresh_eq]
    exact hs.cache.representative d hd x hx
  · intro r hrr
    refine hs.resident r fun hn => hrr ?_
    change (h.page r).resides = -1
    rw [hr, hn, ite_self]

/-- A chain is created. -/
theorem addChain (hs : s.Rep L) (policy : EvictionPolicy) (capacity : ℤ) (bounded anchored : Bool) :
    (s.addChain (.make s.chainId policy capacity bounded anchored)).Rep L := by
  set s' := s.addChain (.make s.chainId policy capacity bounded anchored) with hs'
  -- The new identifier is that of no chain, so that no page is on the chain.
  have hnew : ¬s.IsChain s.chainId := fun h => absurd (hs.ids.isChain_nonneg h).2 (lt_irrefl _)
  have hnil := hs.eq_nil_of_not_isChain hnew
  have hchain : ∀ d, d ≠ s.chainId → s'.chains d = s.chains d := fun d hd =>
    Function.update_of_ne hd _ _
  have hchainc : s'.chains s.chainId = .make s.chainId policy capacity bounded anchored :=
    Function.update_self ..
  have hne : ∀ d ∈ s.usrChains, d ≠ s.chainId := by
    rintro d hd rfl
    exact hnew (.inr hd)
  have hmem : ∀ d ∈ s'.usrChains, d = s.chainId ∨ d ∈ s.usrChains := fun d => List.mem_cons.1
  have h3 := hs.ids.three_le
  -- The new chain is empty, and the others are as before.
  refine ⟨⟨?_, ?_, ?_⟩, ?_, ⟨?_, ?_, ?_, hs.chains.mem_iff, ?_, hs.chains.off, hs.chains.blank,
    hs.chains.ordered, hs.chains.linkedAt_lt⟩, ⟨?_, ?_, ?_⟩, hs.resident⟩
  · exact List.nodup_cons.2 ⟨fun h => hnew (.inr h), hs.ids.nodup⟩
  · intro d hd
    change 3 ≤ d ∧ d < s.chainId + 1
    rcases hmem d hd with rfl | hd
    · omega
    · have := hs.ids.range d hd
      omega
  · change 3 ≤ s.chainId + 1
    omega
  · obtain ⟨h₁, h₂, h₃, h₄, h₅, h₆, h₇, h₈, h₉, h₁₀⟩ := hs.store
    exact ⟨h₁, h₂, h₃, h₄, h₅, h₆, h₇, h₈, h₉, h₁₀⟩
  · intro d
    by_cases hd : d = s.chainId
    · rw [hd, hchainc, hnil]
      exact ⟨.nil rfl, rfl, fun a ha => absurd ha (by simp [MemoryChain.make])⟩
    · rw [hchain d hd]
      exact hs.chains.holds d
  · intro d
    by_cases hd : d = s.chainId
    · rw [hd, hchainc]
      rfl
    · rw [hchain d hd]
      exact hs.chains.id_eq d
  · intro d
    by_cases hd : d = s.chainId
    · rw [hd, hchainc]
      rfl
    · rw [hchain d hd]
      exact hs.chains.bounded d
  · intro r hr
    exact (hs.chains.resides r hr).imp_right fun h => List.mem_cons_of_mem _ h
  · intro d hd
    rcases hmem d hd with rfl | hd
    · rw [hchainc]
      exact Nat.zero_le _
    · rw [hchain d (hne d hd)]
      exact hs.cache.le_clock d hd
  · intro d hd
    rcases hmem d hd with rfl | hd
    · simp [hnil]
    · rw [hchain d (hne d hd)]
      exact hs.cache.le_stamp d hd
  · intro d hd
    rcases hmem d hd with rfl | hd
    · rw [hchainc]
      exact fun x hx => absurd hx (by simp [MemoryChain.make])
    · rw [hchain d (hne d hd)]
      exact hs.cache.representative d hd

/-- A chain that holds no page is dropped. -/
theorem dropChain (hs : s.Rep L) (hid : L id = []) :
    Rep { s with usrChains := s.usrChains.erase id } L := by
  have hsub : ∀ d ∈ s.usrChains.erase id, d ∈ s.usrChains := fun d => List.mem_of_mem_erase
  refine ⟨⟨hs.ids.nodup.erase id, fun d hd => hs.ids.range d (hsub d hd), hs.ids.three_le⟩, ?_,
    hs.chains.congr (fun _ => rfl) hs.chains.blank rfl (fun _ => rfl) fun d hd hc => ?_,
    ⟨fun d hd => hs.cache.le_clock d (hsub d hd), fun d hd => hs.cache.le_stamp d (hsub d hd),
      fun d hd => hs.cache.representative d (hsub d hd)⟩, hs.resident⟩
  · obtain ⟨h₁, h₂, h₃, h₄, h₅, h₆, h₇, h₈, h₉, h₁₀⟩ := hs.store
    exact ⟨h₁, h₂, h₃, h₄, h₅, h₆, h₇, h₈, h₉, h₁₀⟩
  · have hdi : d ≠ id := by
      rintro rfl
      exact hd hid
    exact hc.imp_right (List.mem_erase_of_ne hdi).2

/-- The invariant holds of a new manager. -/
theorem make (n : ℕ) (clock : LogicalClock) (draws : ℕ → ℕ) :
    (HierarchicalMemoryManager.make n clock draws).Rep fun _ => [] := by
  refine ⟨⟨List.nodup_nil, by simp [HierarchicalMemoryManager.make], le_rfl⟩, .make n clock draws,
    ⟨fun id => ⟨.nil rfl, rfl, ?_⟩, fun _ => rfl, fun _ => rfl, ?_, ?_, fun _ _ => ⟨rfl, rfl⟩,
      fun _ _ => rfl, fun _ => .nil, ?_⟩, ⟨?_, ?_, ?_⟩, ?_⟩
  all_goals simp [HierarchicalMemoryManager.make, MemoryChain.unbounded, MemoryChain.make]

theorem settled_make (n : ℕ) (clock : LogicalClock) (draws : ℕ → ℕ) :
    (HierarchicalMemoryManager.make n clock draws).Settled := fun _ hr =>
  absurd (List.eq_of_mem_replicate hr) (by simp)

end Rep

end HierarchicalMemoryManager

end Mcpq.Hierarchical
