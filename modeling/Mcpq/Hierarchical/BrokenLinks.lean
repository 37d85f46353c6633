import Mcpq.Hierarchical.SetAndForget

/-!
# Broken links

Whether the links that `breakMemoryChain` and `unlink` break stay broken (`broken_links`), in any run that
does not make them again: they do if the pages are in memory. A page of the swap space stays assigned to
its chain, and is linked to it again when it is loaded.

* `Broken`, `Unlinked`: what keeps a link broken, which every call keeps that does not link the page;
* `exists_reload`: the run in which a page of the swap space comes back to its chain.
-/

namespace Mcpq.Hierarchical

open HierarchicalMemoryManager

/-- The call links a page to the chain `c`. -/
def Call.Names (c : ℤ) : Call → Prop
  | .link chain _ => chain = c
  | .anchor chain _ => chain = c
  | _ => False

/-- The call links the page of the address `a` to a chain. -/
def Call.NamesPage (a : ℤ) : Call → Prop
  | .link _ address => address = a
  | .anchor _ address => address = a
  | _ => False

/-- Until a call links a page to the chain `c`, no page is a member of it. -/
def StaysBroken (n : ℕ) (c : ℤ) (s : HierarchicalMemoryManager) : Prop :=
  ∀ calls s', (FullSystem n).RunBy (fun _ call => ¬call.Names c) s calls s' → ∀ p, ¬s'.Member c p

/-- Until a call links the page of the address `a`, it is not a member of any user chain. -/
def StaysUnlinked (n : ℕ) (a : ℤ) (s : HierarchicalMemoryManager) : Prop :=
  ∀ calls s', (FullSystem n).RunBy (fun _ call => ¬call.NamesPage a) s calls s' →
    ∀ p, s'.PageOf a p → ∀ d, 3 ≤ d → ¬s'.Member d p

/-- No page resides on the user chain `c`, nor will when it is loaded. -/
structure Broken (s : HierarchicalMemoryManager) (c : ℤ) : Prop where
  three_le : 3 ≤ c
  lt : c < s.chainId
  resides : ∀ q < s.heap.fresh, (s.heap.page q).resides ≠ c
  assigned : ∀ q < s.heap.fresh, (s.heap.page q).assigned = c → c ∉ s.usrChains

/-- The page of the address `a` resides on no user chain, nor will when it is loaded. -/
def Unlinked (s : HierarchicalMemoryManager) (a : ℤ) : Prop :=
  ∃ p, s.PageOf a p ∧ (s.heap.page p).resides < 3 ∧ (s.heap.page p).assigned < s.chainId ∧
    (s.heap.page p).assigned ∉ s.usrChains

variable {n : ℕ} {s s' s₁ t : HierarchicalMemoryManager} {L : ℤ → List PageRef} {V : List ℤ}
  {call : Call} {calls : List Call} {p q : PageRef} {a c : ℤ}

theorem isChain_lt (h : s.IsChain c) (hc : c ∉ s.usrChains) : c < 3 := by
  have := isSysMemChain_iff.1 (h.resolve_right hc)
  omega

/-- A page that resides on no user chain is not loaded to one if its own has been released. -/
theorem Places.resides_lt (h : Places s call s') (hq : q < s.heap.fresh) (hsend : ¬call.Sends s q)
    (hr : (s.heap.page q).resides < 3) (ha : (s.heap.page q).assigned ∉ s.usrChains) :
    (s'.heap.page q).resides < 3 := by
  rcases h.resides q hq hsend with heq | heq | ⟨-, heq, hc⟩
  · rwa [heq]
  · omega
  · rw [heq]
    by_cases h3 : 3 ≤ (s.heap.page q).assigned
    · rw [home_of_le h3] at hc ⊢
      exact isChain_lt hc ha
    · exact home_lt (not_le.1 h3)

/-! ## Chains -/

/-- A call that does not name a user chain sends no page to it. -/
theorem Call.destination_ne (h3 : 3 ≤ c) (hc : ¬call.Names c) :
    call.destination ≠ c ∧ call.assignment ≠ c := by
  have hsys : SystemQueue.hated.ordinal ≠ c ∧ SystemQueue.default.ordinal ≠ c := by
    simp only [SystemQueue.ordinal]
    omega
  cases call with
  | link chain a => exact ⟨hc, hc⟩
  | anchor chain a => exact ⟨hc, hc⟩
  | _ => exact hsys

/-- A page that is not sent to the chain `c` does not reside on it, unless it did, or is loaded. -/
theorem Places.resides_ne (h : Places s call s') (h3 : 3 ≤ c) (hq : q < s.heap.fresh)
    (hsend : ¬call.Sends s q) (hr : (s.heap.page q).resides ≠ c)
    (ha : (s.heap.page q).resides = -1 → (s.heap.page q).assigned = c → c ∉ s.usrChains) :
    (s'.heap.page q).resides ≠ c := by
  rcases h.resides q hq hsend with heq | heq | ⟨hoff, heq, hc⟩
  · rwa [heq]
  · omega
  · intro hrc
    by_cases h3' : 3 ≤ (s.heap.page q).assigned
    · rw [home_of_le h3'] at heq hc
      have hqc := heq.symm.trans hrc
      have := isChain_lt hc (hqc ▸ ha hoff hqc)
      omega
    · have := home_lt (not_le.1 h3')
      omega

theorem Places.broken (h : Places s call s') (hc : ¬call.Names c) (hs : Broken s c) :
    Broken s' c := by
  obtain ⟨hdest, hassign⟩ := Call.destination_ne hs.three_le hc
  have h3 := hs.three_le
  have husr : c ∉ s.usrChains → c ∉ s'.usrChains := fun hd hd' =>
    (h.usrChains c hd').elim hd (not_le.2 hs.lt)
  refine ⟨h3, hs.lt.trans_le h.chainId_le, fun q hq => ?_, fun q hq => ?_⟩
  · rcases Nat.lt_or_ge q s.heap.fresh with hold | hnew
    · by_cases hsend : call.Sends s q
      · rwa [(h.of_sends q hold hsend).1]
      · exact h.resides_ne h3 hold hsend (hs.resides q hold) fun _ => hs.assigned q hold
    · rw [(h.of_new q hnew hq).2]
      simp only [SystemQueue.ordinal]
      omega
  · rcases Nat.lt_or_ge q s.heap.fresh with hold | hnew
    · by_cases hsend : call.Sends s q
      · rw [(h.of_sends q hold hsend).2]
        exact fun h => absurd h hassign
      · rw [h.assigned_eq q hold hsend]
        exact fun ha => husr (hs.assigned q hold ha)
    · rw [(h.of_new q hnew hq).1]
      omega

/-- A chain is broken, for good if it has been released or if its pages are in memory. -/
theorem broken_of_break (hs : (FullSystem n).Reachable s)
    (hst : FullStep s (.breakMemoryChain c) s₁)
    (hin : c ∈ s.usrChains → ∀ p < s.heap.fresh, (s.heap.page p).assigned = c → s.Resident p) :
    Broken s₁ c := by
  have h := reachable_places hs hst
  obtain ⟨h3, hlt⟩ := hst.created c rfl
  have hsys : SystemQueue.hated.ordinal ≠ c ∧ SystemQueue.default.ordinal ≠ c := by
    simp only [SystemQueue.ordinal]
    omega
  have hoff : ∀ q < s.heap.fresh, (s.heap.page q).resides = -1 → (s.heap.page q).assigned = c →
      c ∉ s.usrChains := fun q hq hr ha hd =>
    (reachable_resident_iff hs).1 (hin hd q hq ha) hr
  refine ⟨h3, hlt.trans_le h.chainId_le, fun q hq => ?_, fun q hq => ?_⟩
  · rcases Nat.lt_or_ge q s.heap.fresh with hold | hnew
    · by_cases hsend : (s.heap.page q).resides = c
      · rw [(h.of_sends q hold hsend).1]
        exact hsys.1
      · exact h.resides_ne h3 hold hsend hsend (hoff q hold)
    · rw [(h.of_new q hnew hq).2]
      exact hsys.2
  · rcases Nat.lt_or_ge q s.heap.fresh with hold | hnew
    · by_cases hsend : (s.heap.page q).resides = c
      · rw [(h.of_sends q hold hsend).2]
        exact fun h => absurd h hsys.2
      · -- A page that is assigned to the chain, and not on it, is not in memory.
        rw [h.assigned_eq q hold hsend]
        intro ha hd
        refine hoff q hold ?_ ha ((h.usrChains c hd).resolve_right (not_le.2 hlt))
        by_contra hr
        have heq := (reachable_assigned hs).2.resides_eq q hold hr (ha.symm ▸ h3)
        exact hsend (heq.trans ha)
    · rw [(h.of_new q hnew hq).1]
      omega

theorem Broken.stays (hs : (FullSystem n).Reachable s) (hb : Broken s c) : StaysBroken n c s := by
  intro calls s' hrun p hp
  obtain ⟨hs', hb'⟩ := hrun.invariant
    (I := fun s => (FullSystem n).Reachable s ∧ Broken s c)
    (fun s call s' ⟨hs, hb⟩ hc hst => ⟨.step hs trivial hst, (reachable_places hs hst).broken hc hb⟩)
    ⟨hs, hb⟩
  obtain ⟨hr, hne⟩ := (reachable_member_iff hs').1 hp
  refine hb'.resides p ?_ hr
  obtain ⟨⟨t, L, V, rfl, h, -⟩, -⟩ := reachable_assigned hs'
  exact h.rep.lt_fresh (h.rep.chains.mem_resides (hr ▸ hne))

/-! ## Pages -/

theorem Places.unlinked (h : Places s call s') (hids : ∀ d ∈ s'.usrChains, 3 ≤ d)
    (h3 : 3 ≤ s.chainId) (hc : ¬call.NamesPage a) (hs : Unlinked s a) : Unlinked s' a := by
  obtain ⟨p, ⟨hlt, haddr⟩, hr, hid, ha⟩ := hs
  refine ⟨p, ⟨hlt.trans_le h.fresh_le, (h.address_eq p hlt).trans haddr⟩, ?_⟩
  have hle := h.chainId_le
  by_cases hsend : call.Sends s p
  · obtain ⟨hr', ha'⟩ := h.of_sends p hlt hsend
    -- It is sent to the hated chain.
    have hdest : call.destination = 0 ∧ call.assignment = 2 := by
      cases call with
      | link chain b => exact absurd (hsend.symm.trans haddr) hc
      | anchor chain b => exact absurd (hsend.symm.trans haddr) hc
      | _ => exact ⟨rfl, rfl⟩
    rw [hr', ha', hdest.1, hdest.2]
    exact ⟨by decide, by omega, fun h => absurd (hids 2 h) (by decide)⟩
  · rw [h.assigned_eq p hlt hsend]
    exact ⟨h.resides_lt hlt hsend hr ha, hid.trans_le hle,
      fun hd => (h.usrChains _ hd).elim ha (not_le.2 hid)⟩

theorem reachable_ids (hs : (FullSystem n).Reachable s) :
    3 ≤ s.chainId ∧ ∀ d ∈ s.usrChains, 3 ≤ d := by
  obtain ⟨⟨t, L, V, rfl, h, -⟩, -⟩ := reachable_assigned hs
  exact ⟨h.rep.ids.three_le, fun d hd => (h.rep.ids.range d (h.subset d hd)).1⟩

/-- A page is unlinked, for good if it is in memory or if its chain has been released. -/
theorem unlinked_of_unlink (hs : (FullSystem n).Reachable s) (hst : FullStep s (.unlink a) s₁)
    (hp : s.PageOf a p) (hin : s.Resident p ∨ (s.heap.page p).assigned ∉ s.usrChains) :
    Unlinked s₁ a := by
  have h := reachable_places hs hst
  obtain ⟨h3, hids⟩ := reachable_ids hs
  obtain ⟨-, hids₁⟩ := reachable_ids (.step hs trivial hst : (FullSystem n).Reachable s₁)
  have hassigned := (reachable_assigned hs).2
  obtain ⟨hlt, haddr⟩ := hp
  have hle := h.chainId_le
  by_cases hsend : Call.Sends s p (.unlink a)
  · -- The page is sent to the hated chain, and assigned to the default one.
    obtain ⟨hr', ha'⟩ := h.of_sends p hlt hsend
    refine ⟨p, ⟨hlt.trans_le h.fresh_le, (h.address_eq p hlt).trans haddr⟩, ?_⟩
    rw [hr', ha']
    refine ⟨(by decide : (0 : ℤ) < 3), ?_, fun h => absurd (hids₁ 2 h) (by decide)⟩
    exact (show (2 : ℤ) < 3 by decide).trans_le (h3.trans hle)
  · -- The page is hated already, or in the swap space.
    have hr : (s.heap.page p).resides < 3 := by
      by_contra hr
      refine hsend ⟨haddr, ?_, ?_⟩
      · omega
      · simp only [SystemQueue.ordinal]
        omega
    have ha : (s.heap.page p).assigned ∉ s.usrChains := by
      rcases hin with hres | ha
      · intro hd
        have h3' := hids _ hd
        have := hassigned.resides_eq p hlt ((reachable_resident_iff hs).1 hres) h3'
        omega
      · exact ha
    refine ⟨p, ⟨hlt.trans_le h.fresh_le, (h.address_eq p hlt).trans haddr⟩, ?_⟩
    rw [h.assigned_eq p hlt hsend]
    exact ⟨h.resides_lt hlt hsend hr ha, (hassigned.lt p hlt).trans_le hle,
      fun hd => (h.usrChains _ hd).elim ha (not_le.2 (hassigned.lt p hlt))⟩

theorem Unlinked.stays (hs : (FullSystem n).Reachable s) (hu : Unlinked s a) :
    StaysUnlinked n a s := by
  intro calls s' hrun p hp d hd hmem
  obtain ⟨hs', q, hq, hr, -⟩ := hrun.invariant
    (I := fun s => (FullSystem n).Reachable s ∧ Unlinked s a)
    (fun s call s' ⟨hs, hu⟩ hc hst => ⟨.step hs trivial hst,
      (reachable_places hs hst).unlinked (reachable_ids (hs.step trivial hst)).2
        (reachable_ids hs).1 hc hu⟩) ⟨hs, hu⟩
  obtain rfl := reachable_pageOf_inj hs' hp hq
  have := ((reachable_member_iff hs').1 hmem).1
  omega

/-! ## Pages that are loaded again -/

/-- An access to a page of the swap space links it to the chain it is assigned to. -/
theorem member_of_access (hs : (FullSystem n).Reachable s) (hst : FullStep s (.access a) s')
    (hp : s.PageOf a p) (hres : ¬s.Resident p) (h3 : 3 ≤ (s.heap.page p).assigned) :
    s'.Member (s.heap.page p).assigned p := by
  have hs' : (FullSystem n).Reachable s' := hs.step trivial hst
  have h := reachable_places hs hst
  obtain ⟨q, hq, hres'⟩ := resident_of_access hs hst
  obtain rfl : p = q := reachable_pageOf_inj hs'
    ⟨hp.1.trans_le h.fresh_le, (h.address_eq p hp.1).trans hp.2⟩ hq
  have hr' := (reachable_resident_iff hs').1 hres'
  refine (reachable_member_iff hs').2 ⟨?_, by omega⟩
  rcases h.resides p hp.1 (fun h => h) with heq | heq | ⟨-, heq, -⟩
  · rw [heq] at hr'
    exact absurd ((reachable_resident_iff hs).2 hr') hres
  · exact absurd heq hr'
  · rw [heq, home_of_le h3]

theorem FullStep.of_access {order : List ℤ} {o : Outcome ℤ} (ho : order.Perm s.usrChains)
    (heq : s.access order a = .ok (s', o)) : FullStep s (.access a) s' := by
  refine ⟨fun chain hc => ?_, order, some o, ho, ?_⟩
  · cases hc
  · rw [Call.exec, heq]
    rfl

namespace Kept

/-- An access to a page of the swap space, assigned to a live chain, ends normally if a frame is free, or
    if a page is on a chain that has not been released. -/
theorem access_returns (h : Kept t L V) (hp : t.PageOf a p) (hres : ¬t.Resident p)
    (hd : (t.heap.page p).assigned ∈ V)
    (hne : none ∈ t.memory.pages ∨ ∃ d, (t.withLive V).IsChain d ∧ L d ≠ []) :
    ∃ s', FullStep (t.withLive V) (.access a) s' := by
  obtain ⟨t₁, frame, v, halloc⟩ := h.rep.allocFrame_returns h.subset hne
  obtain ⟨L₁, f, rfl, hfr, hf⟩ := h.rep.allocFrame_frees h.subset halloc
  have hhome : t.homeChain a = (t.heap.page p).assigned := by
    rw [homeChain_of_swap (hp.2 ▸ h.rep.store.swap_of_not_resident hp.1 hres), home_of_le]
    exact (h.rep.ids.range _ (h.subset _ hd)).1
  have hn : ∀ r, t.Resident r → (t.heap.page r).address ≠ a := fun r hr ha =>
    hres (h.rep.pageOf_inj ⟨h.rep.store.lt_fresh hr, ha⟩ hp ▸ hr)
  obtain ⟨t', q, heq, -⟩ := h.rep.access_of_frees halloc hfr hf hn h.subset
    (hhome ▸ .inr hd : (t.withLive V).IsChain (t.homeChain a))
  exact ⟨_, .of_access (.refl V) heq⟩

end Kept

/-- The calls that load a page of the swap space. -/
def Call.Loads (a : ℤ) (call : Call) : Prop :=
  call = .access a ∨ ∃ chain, call = .breakMemoryChain chain

/-- A page of the swap space comes back to its chain, if that has not been released. Where memory is full
    of pages on chains that have been, one of these is broken first. -/
theorem exists_reload (hs : (FullSystem n).Reachable s) (hp : s.PageOf a p) (hres : ¬s.Resident p)
    (hd : (s.heap.page p).assigned ∈ s.usrChains) :
    ∃ calls s', (FullSystem n).RunBy (fun _ call => call.Loads a) s calls s' ∧
      s'.Member (s.heap.page p).assigned p := by
  have h3 := (reachable_ids hs).2 _ hd
  obtain ⟨⟨t, L, V, rfl, h, hsize⟩, hpos⟩ := reachable_kept hs
  by_cases hne : none ∈ t.memory.pages ∨ ∃ d, (t.withLive V).IsChain d ∧ L d ≠ []
  · obtain ⟨s', hst⟩ := h.access_returns hp hres hd hne
    exact ⟨[.access a], s', .cons (.inl rfl) hst .nil, member_of_access hs hst hp hres h3⟩
  · push Not at hne
    obtain ⟨hfull, hnil⟩ := hne
    obtain ⟨e, he⟩ := h.rep.exists_ne_nil h.settled
      (hsize.symm ▸ hpos (Nat.zero_lt_of_lt hp.1)) hfull
    obtain ⟨r, hr⟩ := List.exists_mem_of_ne_nil _ he
    have hmem : e ∈ t.usrChains := (h.rep.chains.isChain_of_mem hr).resolve_left fun hsys =>
      he (hnil e (.inl hsys))
    obtain ⟨t', heq, hs', hsend, -⟩ := h.rep.breakMemoryChain hmem
    have hst : FullStep (t.withLive V) (.breakMemoryChain e) (t'.withLive V) := by
      refine ⟨fun chain hc => ?_, V, none, .refl _, ?_⟩
      · cases hc
        exact h.rep.ids.range e hmem
      · rw [Call.exec, breakMemoryChain_withLive, heq]
        rfl
    have h' : Kept t' (broken L e) V := h.sends hs' hsend (by decide) fun _ => id
    -- The page stays in the swap space, and the hated chain holds the page `r`.
    have hoff : p ∉ L e := fun hm => hres (h.rep.mem_resident hm)
    have hassigned : (t'.heap.page p).assigned = (t.heap.page p).assigned :=
      (hsend.assigned_eq p).trans (if_neg hoff)
    have hp' : t'.PageOf a p := ⟨hsend.fresh_eq ▸ hp.1, (hsend.address_eq p).trans hp.2⟩
    have hres' : ¬t'.Resident p := fun hm => hres ((hsend.resident_iff p).1 hm)
    have hhated : r ∈ broken L e SystemQueue.hated.ordinal := by
      rw [broken, Function.update_self]
      exact List.mem_append_left _ (List.mem_reverse.2 hr)
    have hs₁ : (FullSystem n).Reachable (t'.withLive V) := hs.step trivial hst
    obtain ⟨s', hst'⟩ := h'.access_returns hp' hres' (hassigned ▸ hd)
      (.inr ⟨_, isChain_hated _, List.ne_nil_of_mem hhated⟩)
    refine ⟨[.breakMemoryChain e, .access a], s',
      .cons (.inr ⟨e, rfl⟩) hst (.cons (.inl rfl) hst' .nil), ?_⟩
    have hmember := member_of_access (p := p) hs₁ hst' hp' hres'
      (show 3 ≤ (t'.heap.page p).assigned by rwa [hassigned])
    rwa [show ((t'.withLive V).heap.page p).assigned = (t.heap.page p).assigned from hassigned]
      at hmember

theorem pageOf_run {P : HierarchicalMemoryManager → Call → Prop} (hs : (FullSystem n).Reachable s)
    (hp : s.PageOf a p) (hrun : (FullSystem n).RunBy P s calls s') : s'.PageOf a p := by
  refine (hrun.invariant (I := fun s => (FullSystem n).Reachable s ∧ s.PageOf a p) ?_ ⟨hs, hp⟩).2
  rintro s call s' ⟨hs, hlt, haddr⟩ - hst
  have h := reachable_places hs hst
  exact ⟨.step hs trivial hst, hlt.trans_le h.fresh_le, (h.address_eq p hlt).trans haddr⟩

/-- A page of the swap space that a call does not send comes back to its chain. -/
theorem exists_member (hs : (FullSystem n).Reachable s) (hst : FullStep s call s₁)
    (hp : s.PageOf a p) (hsend : ¬call.Sends s p) (hres : ¬s.Resident p)
    (hd : (s.heap.page p).assigned ∈ s₁.usrChains) :
    ∃ calls s', (FullSystem n).RunBy (fun _ call => call.Loads a) s₁ calls s' ∧ s'.PageOf a p ∧
      s'.Member (s.heap.page p).assigned p := by
  have hs₁ : (FullSystem n).Reachable s₁ := hs.step trivial hst
  have h := reachable_places hs hst
  have hp₁ : s₁.PageOf a p := ⟨hp.1.trans_le h.fresh_le, (h.address_eq p hp.1).trans hp.2⟩
  have hassigned := h.assigned_eq p hp.1 hsend
  by_cases hres₁ : s₁.Resident p
  · -- It has come back at once.
    have h3 := (reachable_ids hs₁).2 _ hd
    refine ⟨[], s₁, .nil, hp₁, (reachable_member_iff hs₁).2 ⟨?_, by omega⟩⟩
    have hr₁ := (reachable_resident_iff hs₁).1 hres₁
    rcases h.resides p hp.1 hsend with heq | heq | ⟨-, heq, -⟩
    · rw [heq] at hr₁
      exact absurd ((reachable_resident_iff hs).2 hr₁) hres
    · exact absurd heq hr₁
    · rw [heq, home_of_le h3]
  · obtain ⟨calls, s', hrun, hmember⟩ := exists_reload hs₁ hp₁ hres₁ (hassigned.symm ▸ hd)
    rw [hassigned] at hmember
    exact ⟨calls, s', hrun, pageOf_run hs₁ hp₁ hrun, hmember⟩

theorem usrChains_of_break (hst : FullStep s (.breakMemoryChain c) s₁) :
    s₁.usrChains = s.usrChains := by
  obtain ⟨order, o, -, hexec⟩ := hst.returns
  obtain ⟨s₂, heq, h⟩ := map_eq_ok hexec
  cases h
  obtain ⟨t, -, rfl⟩ := map_eq_ok ((breakMemoryChain_withLive (V := s.usrChains)).symm.trans heq)
  rfl

theorem usrChains_of_unlink (hst : FullStep s (.unlink a) s₁) : s₁.usrChains = s.usrChains := by
  obtain ⟨order, o, -, hexec⟩ := hst.returns
  obtain ⟨s₂, heq, h⟩ := map_eq_ok hexec
  cases h
  obtain ⟨t, -, rfl⟩ := unlink_withLive (s := s) (V := s.usrChains) (fun _ => id) heq
  rfl

/-- Broken links stay broken if the pages are in memory, or if the chain they are assigned to has been
    released: a chain that is broken, if all the pages assigned to it are in memory, and a page that is
    unlinked, if it is in memory, or is not assigned to a live chain. -/
theorem broken_links (hs : (FullSystem n).Reachable s) :
    (∀ c s₁, FullStep s (.breakMemoryChain c) s₁ → (StaysBroken n c s₁ ↔
      (c ∈ s.usrChains → ∀ p < s.heap.fresh, (s.heap.page p).assigned = c → s.Resident p))) ∧
    ∀ a p s₁, s.PageOf a p → FullStep s (.unlink a) s₁ → (StaysUnlinked n a s₁ ↔
      s.Resident p ∨ (s.heap.page p).assigned ∉ s.usrChains) := by
  refine ⟨fun c s₁ hst => ⟨fun hstays hc p hlt ha => ?_, fun hin => ?_⟩,
    fun a p s₁ hp hst => ⟨fun hstays => ?_, fun hin => ?_⟩⟩
  · -- A page assigned to the chain that is in the swap space is linked to it when it is loaded.
    by_contra hres
    have h3 := (reachable_ids hs).2 c hc
    have hoff : (s.heap.page p).resides = -1 := by
      by_contra hr
      exact hres ((reachable_resident_iff hs).2 hr)
    have hsend : ¬Call.Sends s p (.breakMemoryChain c) := fun h => by
      have hr : (s.heap.page p).resides = c := h
      omega
    obtain ⟨calls, s', hrun, -, hmem⟩ := exists_member hs hst ⟨hlt, rfl⟩ hsend hres
      (usrChains_of_break hst ▸ ha.symm ▸ hc)
    refine hstays calls s' (hrun.mono ?_) p (ha ▸ hmem)
    rintro - call (rfl | ⟨e, rfl⟩) h
    · exact h
    · exact h
  · exact (broken_of_break hs hst hin).stays (hs.step trivial hst)
  · by_contra hin
    push Not at hin
    obtain ⟨hres, hd⟩ := hin
    have hsend : ¬Call.Sends s p (.unlink a) := fun h =>
      hres ((reachable_resident_iff hs).2 h.2.1)
    obtain ⟨calls, s', hrun, hp', hmem⟩ := exists_member hs hst hp hsend hres
      (usrChains_of_unlink hst ▸ hd)
    refine hstays calls s' (hrun.mono ?_) p hp' _ ((reachable_ids hs).2 _ hd) hmem
    rintro - call (rfl | ⟨e, rfl⟩) h
    · exact h
    · exact h
  · exact (unlinked_of_unlink hs hst hp hin).stays (hs.step trivial hst)

/-- A chain that is broken, and a page that is unlinked, in a manager of two frames. -/
theorem broken_links_resident : ∃ s s₁, (FullSystem 2).Reachable s ∧
    FullStep s (.breakMemoryChain 3) s₁ ∧
    ((∀ c s₁, FullStep s (.breakMemoryChain c) s₁ → (StaysBroken 2 c s₁ ↔
      (c ∈ s.usrChains → ∀ p < s.heap.fresh, (s.heap.page p).assigned = c → s.Resident p))) ∧
    ∀ a p s₁, s.PageOf a p → FullStep s (.unlink a) s₁ → (StaysUnlinked 2 a s₁ ↔
      s.Resident p ∨ (s.heap.page p).assigned ∉ s.usrChains)) := by
  obtain ⟨s, s₁, -, hs, hst, -, -⟩ := exists_run (n := 2) (P := fun _ => True)
    (Q := fun _ _ => true) [.createMemoryChain .lru, .access 1, .link 3 1] (.breakMemoryChain 3) []
    (by simp) (by decide)
  exact ⟨s, s₁, hs, hst, broken_links hs⟩

/-- The page of the address 1 is linked to the chain 3 and evicted from a manager of one frame. Then the
    chain is broken, or the page is unlinked: it comes back to the chain when it is loaded. -/
theorem broken_links_fails :
    (¬∀ n s c s₁, (FullSystem n).Reachable s → FullStep s (.breakMemoryChain c) s₁ →
      StaysBroken n c s₁) ∧
    ¬∀ n s a p s₁, (FullSystem n).Reachable s → s.PageOf a p → FullStep s (.unlink a) s₁ →
      StaysUnlinked n a s₁ := by
  constructor
  · intro h
    obtain ⟨s, s₁, s', hs, hst, hrun, hq⟩ := exists_run (n := 1)
      (P := fun call => ¬call.Names 3) (Q := fun _ s' => (s'.chains 3).iterate s'.heap = .ok [0])
      [.createMemoryChain .lru, .access 1, .link 3 1, .access 2] (.breakMemoryChain 3) [.access 1]
      (by simp [Call.Names]) (by decide)
    exact h 1 s 3 s₁ hs hst [.access 1] s' hrun 0
      ⟨[0], of_decide_eq_true hq, List.mem_singleton_self 0⟩
  · intro h
    obtain ⟨s, s₁, s', hs, hst, hrun, hq⟩ := exists_run (n := 1)
      (P := fun call => ¬call.NamesPage 1)
      (Q := fun s s' => (0 < s.heap.fresh ∧ (s.heap.page 0).address = 1) ∧
        (0 < s'.heap.fresh ∧ (s'.heap.page 0).address = 1) ∧
          (s'.chains 3).iterate s'.heap = .ok [0])
      [.createMemoryChain .lru, .access 1, .link 3 1, .access 2] (.unlink 1) [.access 1]
      (by simp [Call.NamesPage]) (by decide)
    obtain ⟨hp, hp', hiter⟩ := of_decide_eq_true hq
    exact h 1 s 1 0 s₁ hs hp hst [.access 1] s' hrun 0 hp' 3 le_rfl
      ⟨[0], hiter, List.mem_singleton_self 0⟩

end Mcpq.Hierarchical
