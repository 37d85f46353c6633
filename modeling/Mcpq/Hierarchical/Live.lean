import Mcpq.Hierarchical.Manager

/-!
# The map of the user chains

The methods of a manager read the map of its user chains only to look a chain up, and in `evict`,
which goes through the map. A manager whose map has other keys (`withLive`) then does the same, if the
chains looked up are there: `evict`, which is given the order in which it goes through the map, does
the same in any case.

This is how a chain that has been released is dealt with. It is an object on which calls may still be
made, and the manager does what it would if it had kept it, as long as no chain that it looks up has
been released.
-/

namespace Mcpq.Hierarchical

namespace HierarchicalMemoryManager

/-- The manager whose map of the user chains has the keys `live`. -/
def withLive (s : HierarchicalMemoryManager) (live : List ℤ) : HierarchicalMemoryManager :=
  { s with usrChains := live }

variable {s s' : HierarchicalMemoryManager} {V : List ℤ} {id a : ℤ} {p : PageRef}

/-- The live chains as they are. -/
theorem withLive_self : s.withLive s.usrChains = s := rfl

/-! ## Evictions -/

/-- Linking does not read which chains are live. -/
theorem chainLink_withLive :
    (s.withLive V).chainLink id p = (s.chainLink id p).map fun r => (r.1, r.2.withLive V) := by
  simp only [chainLink, withLive]
  cases (s.chains id).link s.heap p with
  | error e => rfl
  | ok r => rfl

/-- Nor does anchoring. -/
theorem chainAnchor_withLive :
    (s.withLive V).chainAnchor id p = (s.chainAnchor id p).map fun r => (r.1, r.2.withLive V) := by
  simp only [chainAnchor, withLive]
  cases (s.chains id).anchorPage s.heap p with
  | error e => rfl
  | ok r => rfl

/-- Nor does reading a timestamp. -/
theorem chainTimestamp_withLive :
    (s.withLive V).chainTimestamp id = (s.chainTimestamp id).map fun r => (r.1, r.2.withLive V) := by
  simp only [chainTimestamp, withLive]
  cases (s.chains id).getTimestamp s.heap with
  | error e => rfl
  | ok r => rfl

/-- Nor does the comparison of a chain with the best one. -/
theorem considerChain_withLive {b : Candidate} :
    considerChain (s.withLive V, b) id =
      (considerChain (s, b) id).map fun r => (r.1.withLive V, r.2) := by
  simp only [considerChain, chainTimestamp_withLive]
  rw [show (s.withLive V).chains = s.chains from rfl]
  split_ifs with hsize
  · cases s.chainTimestamp id with
    | error e => rfl
    | ok r =>
      simp only [Except.map, ok_bind, chainTimestamp_withLive]
      rw [show (r.2.withLive V).chains = r.2.chains from rfl,
        show (r.2.withLive V).heap = r.2.heap from rfl]
      split_ifs with hlt
      · cases (r.2.chains id).victim r.2.heap with
        | error e => rfl
        | ok page =>
          cases r.2.chainTimestamp id with
          | error e => rfl
          | ok r' => rfl
      · rfl
  · rfl

/-- The chains are given by their order. -/
theorem considerChains_withLive {order : List ℤ} {b : Candidate} :
    order.foldlM considerChain (s.withLive V, b) =
      (order.foldlM considerChain (s, b)).map fun r => (r.1.withLive V, r.2) := by
  induction order generalizing s b with
  | nil => rfl
  | cons id order ih =>
    rw [List.foldlM_cons, List.foldlM_cons, considerChain_withLive]
    cases considerChain (s, b) id with
    | error e => rfl
    | ok r => exact ih

/-- So the selection of the victim does not read it either. -/
theorem selectVictim_withLive {order : List ℤ} :
    (s.withLive V).selectVictim order =
      (s.selectVictim order).map fun r => (r.1.withLive V, r.2) := by
  simp only [selectVictim]
  rw [show (s.withLive V).chains = s.chains from rfl, show (s.withLive V).heap = s.heap from rfl]
  split_ifs
  · rfl
  · cases (s.chains SystemQueue.spillover.ordinal).iterate s.heap with
    | error e => rfl
    | ok pages => rfl
  · cases (s.chains SystemQueue.default.ordinal).iterate s.heap with
    | error e => rfl
    | ok pages => exact considerChains_withLive

/-- Nor does the eviction. -/
theorem evict_withLive {order : List ℤ} :
    (s.withLive V).evict order = (s.evict order).map fun r => (r.1.withLive V, r.2) := by
  rw [evict, evict, selectVictim_withLive]
  rcases s.selectVictim order with e | ⟨s₁, ⟨m, page, chain⟩⟩
  · rfl
  · cases chain with
    | none => rfl
    | some id =>
      cases page with
      | none => rfl
      | some p =>
        simp only [Except.map, ok_bind, deref_some]
        rw [show (s₁.withLive V).chainUnlink id (some p) =
          (s₁.chainUnlink id (some p)).withLive V from rfl]
        set s₂ := s₁.chainUnlink id (some p)
        simp only [withLive]
        cases s₂.memory.store s₂.heap none (s₂.heap.page p).frame with
        | error e => rfl
        | ok r => rfl

/-- Nor does the search for a frame. -/
theorem allocFrame_withLive {order : List ℤ} :
    (s.withLive V).allocFrame order =
      (s.allocFrame order).map fun r => (r.1.withLive V, r.2) := by
  simp only [allocFrame, evict_withLive]
  rw [show (s.withLive V).memory = s.memory from rfl]
  split_ifs
  · cases s.evict order with
    | error e => rfl
    | ok r => rfl
  · rfl

/-- Nor does the load of a page. -/
theorem load_withLive : (s.withLive V).load a = ((s.load a).1.withLive V, (s.load a).2) := by
  simp only [load]
  rw [show (s.withLive V).swap = s.swap from rfl]
  cases s.swap a with
  | none => rfl
  | some page => rfl

/-! ## Calls -/

/-- Nor does moving a page that a chain has evicted. -/
theorem spill_withLive {v : Option PageRef} :
    (s.withLive V).spill v = (s.spill v).map (·.withLive V) := by
  cases v with
  | none => rfl
  | some page =>
    simp only [spill, chainLink_withLive]
    cases s.chainLink SystemQueue.spillover.ordinal page with
    | error e => rfl
    | ok r => rfl

/-- A chain that is found among fewer is found among all. -/
theorem usrChain_withLive {d : ℤ} (hV : ∀ d ∈ V, d ∈ s.usrChains)
    (h : (s.withLive V).usrChain id = .ok d) : s.usrChain id = .ok d := by
  rw [usrChain] at h ⊢
  split_ifs at h with hid
  rw [if_pos (hV id hid), h]

/-- The same for any chain. -/
theorem chainOf_withLive {d : ℤ} (hV : ∀ d ∈ V, d ∈ s.usrChains)
    (h : (s.withLive V).chainOf id = .ok d) : s.chainOf id = .ok d := by
  rw [chainOf] at h ⊢
  split_ifs at h ⊢
  · exact h
  · exact usrChain_withLive hV h

/-- What remains to do of `link`. -/
private theorem linkPage_withLive
    (h : (((s.withLive V).assign p id).chainLink id p >>= fun r => r.2.spill r.1) = .ok s') :
    ∃ t, ((s.assign p id).chainLink id p >>= fun r => r.2.spill r.1) = .ok t ∧
      s' = t.withLive V := by
  rw [show (s.withLive V).assign p id = (s.assign p id).withLive V from rfl,
    chainLink_withLive] at h
  cases hl : (s.assign p id).chainLink id p with
  | error e =>
    rw [hl] at h
    cases h
  | ok r =>
    rw [hl] at h
    obtain ⟨t, ht, rfl⟩ := map_eq_ok (spill_withLive.symm.trans h)
    exact ⟨t, ht, rfl⟩

private theorem anchorPage_withLive
    (h : (((s.withLive V).assign p id).chainAnchor id p >>= fun r => r.2.spill r.1) = .ok s') :
    ∃ t, ((s.assign p id).chainAnchor id p >>= fun r => r.2.spill r.1) = .ok t ∧
      s' = t.withLive V := by
  rw [show (s.withLive V).assign p id = (s.assign p id).withLive V from rfl,
    chainAnchor_withLive] at h
  cases hl : (s.assign p id).chainAnchor id p with
  | error e =>
    rw [hl] at h
    cases h
  | ok r =>
    rw [hl] at h
    obtain ⟨t, ht, rfl⟩ := map_eq_ok (spill_withLive.symm.trans h)
    exact ⟨t, ht, rfl⟩

/-- A link that succeeds with fewer live chains succeeds with all of them. -/
theorem link_withLive (hV : ∀ d ∈ V, d ∈ s.usrChains) (h : (s.withLive V).link id a = .ok s') :
    ∃ t, s.link id a = .ok t ∧ s' = t.withLive V := by
  obtain ⟨p, hp, h⟩ := bind_eq_ok h
  rw [link, show s.pageAt a = .ok p from hp, ok_bind]
  simp only at h ⊢
  rw [show (s.withLive V).heap = s.heap from rfl] at h
  split_ifs at h ⊢
  · exact linkPage_withLive h
  · exact linkPage_withLive (s := s.chainUnlink (s.heap.page p).resides (some p)) h
  · obtain ⟨d, hd, h⟩ := bind_eq_ok h
    rw [usrChain_withLive hV hd]
    exact linkPage_withLive (s := s.chainUnlink d (some p)) h
  · exact linkPage_withLive h

/-- So does an anchor. -/
theorem anchor_withLive (hV : ∀ d ∈ V, d ∈ s.usrChains)
    (h : (s.withLive V).anchor id a = .ok s') : ∃ t, s.anchor id a = .ok t ∧ s' = t.withLive V := by
  obtain ⟨p, hp, h⟩ := bind_eq_ok h
  rw [anchor, show s.pageAt a = .ok p from hp, ok_bind]
  simp only at h ⊢
  rw [show (s.withLive V).heap = s.heap from rfl] at h
  split_ifs at h ⊢
  · exact anchorPage_withLive (s := s.chainUnlink (s.heap.page p).resides (some p)) h
  · obtain ⟨d, hd, h⟩ := bind_eq_ok h
    rw [usrChain_withLive hV hd]
    exact anchorPage_withLive (s := s.chainUnlink d (some p)) h
  · exact anchorPage_withLive h

/-- So does an unlink. -/
theorem unlink_withLive (hV : ∀ d ∈ V, d ∈ s.usrChains) (h : (s.withLive V).unlink a = .ok s') :
    ∃ t, s.unlink a = .ok t ∧ s' = t.withLive V := by
  rw [unlink] at h ⊢
  rw [show (s.withLive V).pageTable = s.pageTable from rfl] at h
  split_ifs at h ⊢
  · obtain ⟨q, hq, h⟩ := bind_eq_ok h
    obtain ⟨p, hp, h⟩ := bind_eq_ok h
    obtain ⟨d, hd, h⟩ := bind_eq_ok h
    have hq' : s.memory.load (s.pageTable.lookup a) = .ok q := hq
    rw [hq', ok_bind, hp, ok_bind]
    rw [show s.chainOf (s.heap.page p).resides = .ok d from chainOf_withLive hV hd, ok_bind]
    split_ifs at h ⊢
    · simp only [show ((s.withLive V).chainUnlink d (some p)).assign p SystemQueue.default.ordinal =
        ((s.chainUnlink d (some p)).assign p SystemQueue.default.ordinal).withLive V from rfl,
        chainLink_withLive] at h
      cases hl : ((s.chainUnlink d (some p)).assign p SystemQueue.default.ordinal).chainLink
          SystemQueue.hated.ordinal p with
      | error e =>
        rw [hl] at h
        cases h
      | ok r =>
        rw [hl] at h
        cases h
        refine ⟨r.2, ?_, rfl⟩
        simp only [hl]
        rfl
    · cases h
      exact ⟨s, rfl, rfl⟩
  · cases h
    exact ⟨s, rfl, rfl⟩

/-- Hating a page does not read which chains are live. -/
theorem hatePage_withLive {page : Option PageRef} :
    (s.withLive V).hatePage page = (s.hatePage page).map (·.withLive V) := by
  cases page with
  | none => rfl
  | some p =>
    simp only [hatePage, deref_some, ok_bind]
    rw [show (s.withLive V).assign p SystemQueue.default.ordinal =
      (s.assign p SystemQueue.default.ordinal).withLive V from rfl, chainLink_withLive]
    cases (s.assign p SystemQueue.default.ordinal).chainLink SystemQueue.hated.ordinal p with
    | error e => rfl
    | ok r => rfl

/-- Nor does breaking a chain. -/
theorem breakMemoryChain_withLive :
    (s.withLive V).breakMemoryChain id = (s.breakMemoryChain id).map (·.withLive V) := by
  have hfold : ∀ (pages : List (Option PageRef)) (t : HierarchicalMemoryManager),
      pages.foldlM hatePage (t.withLive V) = (pages.foldlM hatePage t).map (·.withLive V) := by
    intro pages
    induction pages with
    | nil => exact fun t => rfl
    | cons page pages ih =>
      intro t
      rw [List.foldlM_cons, List.foldlM_cons, hatePage_withLive]
      cases t.hatePage page with
      | error e => rfl
      | ok t' => exact ih t'
  rw [breakMemoryChain, breakMemoryChain]
  rw [show (s.withLive V).chains = s.chains from rfl, show (s.withLive V).heap = s.heap from rfl]
  cases (s.chains id).unchain s.heap with
  | error e => rfl
  | ok r => exact hfold r.1 (s.setChain id r.2.1 r.2.2)

/-- An access that succeeds with fewer live chains succeeds with all of them. -/
theorem represent_withLive (hV : ∀ d ∈ V, d ∈ s.usrChains)
    (h : (s.withLive V).represent p = .ok s') : ∃ t, s.represent p = .ok t ∧ s' = t.withLive V := by
  rw [represent] at h ⊢
  rw [show (s.withLive V).heap = s.heap from rfl] at h
  split_ifs at h ⊢
  · obtain ⟨d, hd, h⟩ := bind_eq_ok h
    cases h
    rw [usrChain_withLive hV hd]
    exact ⟨_, rfl, rfl⟩
  · cases h
    exact ⟨s, rfl, rfl⟩

/-- An access to a page in memory. -/
theorem access_withLive (hV : ∀ d ∈ V, d ∈ s.usrChains) (ha : s.pageTable.lookup a ≠ -1)
    {order : List ℤ} {o : Outcome ℤ} (h : (s.withLive V).access order a = .ok (s', o)) :
    ∃ t, s.access order a = .ok (t, o) ∧ s' = t.withLive V := by
  rw [access] at h ⊢
  rw [show (s.withLive V).pageTable = s.pageTable from rfl] at h
  rw [if_neg ha] at h ⊢
  obtain ⟨q, hq, h⟩ := bind_eq_ok h
  obtain ⟨p, hp, h⟩ := bind_eq_ok h
  obtain ⟨s₁, h₁, h⟩ := bind_eq_ok h
  cases h
  rw [show s.memory.load (s.pageTable.lookup a) = .ok q from hq, ok_bind, hp, ok_bind]
  obtain ⟨t, ht, rfl⟩ := represent_withLive (s := { s with heap := s.heap.refPage p }) hV h₁
  rw [ht]
  exact ⟨t, rfl, rfl⟩

end HierarchicalMemoryManager

end Mcpq.Hierarchical
