import Mcpq.Hierarchical.Reachable

/-!
# Places

Where the pages of a manager are, and which chains they are assigned to, after a call (`Places`): a
call on chains sends some pages to a chain, and assigns them to it, or to the default chain
(`Call.Sends`). The other pages stay assigned as they were, and stay where they were, but for the page
evicted and the page loaded by an access. A page that is loaded goes to the chain it is assigned to
(`home`).
-/

namespace Mcpq.Hierarchical

open HierarchicalMemoryManager

/-- The chain that a page assigned to `id` is linked to when it is loaded. -/
def home (id : ℤ) : ℤ := if id ≠ -1 then id else SystemQueue.default.ordinal

namespace Call

/-- The pages that a call sends to a chain. -/
def Sends (s : HierarchicalMemoryManager) (q : PageRef) : Call → Prop
  | link _ address => (s.heap.page q).address = address
  | anchor _ address => (s.heap.page q).address = address
  | unlink address => (s.heap.page q).address = address ∧ (s.heap.page q).resides ≠ -1 ∧
    (s.heap.page q).resides ≠ SystemQueue.hated.ordinal
  | breakMemoryChain chain => (s.heap.page q).resides = chain
  | releaseMemoryChain chain => (s.heap.page q).resides = chain
  | _ => False

/-- The chain to which a call sends pages. -/
def destination : Call → ℤ
  | link chain _ => chain
  | anchor chain _ => chain
  | _ => SystemQueue.hated.ordinal

/-- The chain to which a call assigns pages. -/
def assignment : Call → ℤ
  | link chain _ => chain
  | anchor chain _ => chain
  | _ => SystemQueue.default.ordinal

end Call

/-- What a call does to the places of the pages. -/
structure Places (s : HierarchicalMemoryManager) (call : Call) (s' : HierarchicalMemoryManager) :
    Prop where
  fresh_le : s.heap.fresh ≤ s'.heap.fresh
  address_eq : ∀ q < s.heap.fresh, (s'.heap.page q).address = (s.heap.page q).address
  of_sends : ∀ q < s.heap.fresh, call.Sends s q →
    (s'.heap.page q).resides = call.destination ∧ (s'.heap.page q).assigned = call.assignment
  assigned_eq : ∀ q < s.heap.fresh, ¬call.Sends s q →
    (s'.heap.page q).assigned = (s.heap.page q).assigned
  resides : ∀ q < s.heap.fresh, ¬call.Sends s q →
    (s'.heap.page q).resides = (s.heap.page q).resides ∨ (s'.heap.page q).resides = -1 ∨
      (s.heap.page q).resides = -1 ∧ (s'.heap.page q).resides = home (s.heap.page q).assigned ∧
        s.IsChain (home (s.heap.page q).assigned)
  of_new : ∀ q, s.heap.fresh ≤ q → q < s'.heap.fresh →
    (s'.heap.page q).assigned = -1 ∧ (s'.heap.page q).resides = SystemQueue.default.ordinal
  chainId_le : s.chainId ≤ s'.chainId
  /-- The identifiers of chains are not used again. -/
  usrChains : ∀ d ∈ s'.usrChains, d ∈ s.usrChains ∨ s.chainId ≤ d

/-- What a call that loads no page does to the places of the pages. -/
structure Sent (s : HierarchicalMemoryManager) (call : Call) (s' : HierarchicalMemoryManager) :
    Prop where
  fresh_eq : s'.heap.fresh = s.heap.fresh
  address_eq : ∀ q, (s'.heap.page q).address = (s.heap.page q).address
  of_sends : ∀ q < s.heap.fresh, call.Sends s q →
    (s'.heap.page q).resides = call.destination ∧ (s'.heap.page q).assigned = call.assignment
  of_not_sends : ∀ q < s.heap.fresh, ¬call.Sends s q →
    (s'.heap.page q).resides = (s.heap.page q).resides ∧
      (s'.heap.page q).assigned = (s.heap.page q).assigned
  chainId_le : s.chainId ≤ s'.chainId
  usrChains : ∀ d ∈ s'.usrChains, d ∈ s.usrChains ∨ s.chainId ≤ d

namespace HierarchicalMemoryManager

variable {s s' s₁ : HierarchicalMemoryManager} {L L₁ : ℤ → List PageRef} {p : PageRef}
  {v : Option PageRef} {a : ℤ}

theorem Frees.resides_eq (h : Frees s L s₁ L₁ v) (q : PageRef) :
    (s₁.heap.page q).resides = if v = some q then -1 else (s.heap.page q).resides := by
  cases h with
  | free => rw [if_neg (by simp)]
  | remove _ he =>
    rw [he.resides_eq]
    simp only [Option.some.injEq, eq_comm]

theorem Frees.chainId_eq (h : Frees s L s₁ L₁ v) : s₁.chainId = s.chainId := by
  cases h with
  | free => rfl
  | remove _ he => exact he.chainId_eq

theorem homeChain_of_swap (h : s.swap a = some p) :
    s.homeChain a = home (s.heap.page p).assigned := by
  rw [homeChain, h]
  rfl

end HierarchicalMemoryManager

variable {s s' s₁ : HierarchicalMemoryManager} {L L₁ : ℤ → List PageRef} {call : Call}
  {p : PageRef} {v : Option PageRef} {a : ℤ} {V V' : List ℤ}

namespace Sent

theorem places (h : Sent s call s') : Places s call s' where
  fresh_le := h.fresh_eq.ge
  address_eq q _ := h.address_eq q
  of_sends := h.of_sends
  assigned_eq q hq hsend := (h.of_not_sends q hq hsend).2
  resides q hq hsend := .inl (h.of_not_sends q hq hsend).1
  of_new _ hq hq' := absurd (h.fresh_eq ▸ hq') (not_lt.2 hq)
  chainId_le := h.chainId_le
  usrChains := h.usrChains

/-- A call that sends no page. -/
theorem of_eq (hs : ∀ q < s.heap.fresh, ¬call.Sends s q) (hf : s'.heap.fresh = s.heap.fresh)
    (ha : ∀ q, (s'.heap.page q).address = (s.heap.page q).address)
    (has : ∀ q, (s'.heap.page q).assigned = (s.heap.page q).assigned)
    (hr : ∀ q, (s'.heap.page q).resides = (s.heap.page q).resides)
    (hid : s.chainId ≤ s'.chainId)
    (husr : ∀ d ∈ s'.usrChains, d ∈ s.usrChains ∨ s.chainId ≤ d) : Sent s call s' where
  fresh_eq := hf
  address_eq := ha
  of_sends q hq h := absurd h (hs q hq)
  of_not_sends q _ _ := ⟨hr q, has q⟩
  chainId_le := hid
  usrChains := husr

/-- A call that does nothing. -/
theorem refl (hs : ∀ q < s.heap.fresh, ¬call.Sends s q) : Sent s call s :=
  .of_eq hs rfl (fun _ => rfl) (fun _ => rfl) (fun _ => rfl) le_rfl fun _ => .inl

/-- A chain is created. -/
theorem of_addChain {c : MemoryChain} (hs : ∀ q, ¬call.Sends s q) (hc : c.id = s.chainId) :
    Sent s call (s.addChain c) := by
  refine .of_eq (fun q _ => hs q) rfl (fun _ => rfl) (fun _ => rfl) (fun _ => rfl) ?_ fun d hd => ?_
  · exact (lt_add_one s.chainId).le
  · rcases List.mem_cons.1 hd with rfl | hd
    · exact .inr hc.ge
    · exact .inl hd

/-- The pages `l` are those that the call sends. -/
theorem of_sent {l : List PageRef}
    (h : HierarchicalMemoryManager.Sends s s' l call.destination call.assignment)
    (hl : ∀ q < s.heap.fresh, call.Sends (s.withLive V) q ↔ q ∈ l) (hV : ∀ d ∈ V', d ∈ V) :
    Sent (s.withLive V) call (s'.withLive V') where
  fresh_eq := h.fresh_eq
  address_eq := h.address_eq
  of_sends q hq hc := by
    have hm := (hl q hq).1 hc
    exact ⟨(h.resides_eq q).trans (if_pos hm), (h.assigned_eq q).trans (if_pos hm)⟩
  of_not_sends q hq hc := by
    have hm : q ∉ l := fun hm => hc ((hl q hq).2 hm)
    exact ⟨(h.resides_eq q).trans (if_neg hm), (h.assigned_eq q).trans (if_neg hm)⟩
  chainId_le := h.chainId_eq.ge
  usrChains d hd := .inl (hV d hd)

end Sent

namespace Places

/-- An access to a page that is not in memory. -/
theorem of_fault (hs : s.Rep L) (hn : ∀ r, s.Resident r → (s.heap.page r).address ≠ a)
    (hal : Frees s L s₁ L₁ v) (hf : Faults s₁ s' a p)
    (hc : (s.withLive V).IsChain (s.homeChain a)) :
    Places (s.withLive V) (.access a) (s'.withLive V) := by
  have hswap := hal.swap_eq hs hn
  have hfresh := hal.fresh_eq
  have hcore : ∀ q, q ≠ p → (s'.heap.page q).core = (s.heap.page q).core := fun q hq =>
    (hf.core_eq q hq).trans (hal.core_eq q)
  have hassigned : ∀ q, (s'.heap.page q).assigned = (s.heap.page q).assigned := fun q =>
    (hf.assigned_eq q).trans (hal.assigned_eq q)
  have hhome : s₁.homeChain a = s.homeChain a := hal.homeChain_eq hs hn
  -- The page loaded is a page of the swap space, or it is new.
  have hold : ∀ q < s.heap.fresh, q = p → s.swap a = some p := fun q hq hqp => by
    rcases hf.page with h | ⟨-, h⟩
    · rw [← hswap, h]
    · rw [hfresh, ← hqp] at h
      exact absurd h hq.ne
  refine ⟨?_, fun q hq => ?_, fun q _ h => h.elim, fun q _ _ => hassigned q, fun q hq _ => ?_,
    fun q hq hq' => ?_, (hf.chainId_eq.trans hal.chainId_eq).ge, fun d => .inl⟩
  · change s.heap.fresh ≤ s'.heap.fresh
    rw [← hfresh]
    exact Nat.le_of_not_lt fun hlt => absurd ((hf.lt_fresh_iff _).2 (.inr hlt)) (lt_irrefl _)
  · change (s'.heap.page q).address = (s.heap.page q).address
    by_cases hqp : q = p
    · rw [hqp, hf.address_eq]
      exact (hs.store.swap_eq a p (hold q hq hqp)).2.symm
    · exact (congrArg Page.address (hcore q hqp) :)
  · change (s'.heap.page q).resides = (s.heap.page q).resides ∨ (s'.heap.page q).resides = -1 ∨
      (s.heap.page q).resides = -1 ∧ (s'.heap.page q).resides = home (s.heap.page q).assigned ∧
        (s.withLive V).IsChain (home (s.heap.page q).assigned)
    rw [hf.resides_eq, hhome]
    by_cases hqp : q = p
    · have hp := hold q hq hqp
      rw [if_pos hqp, hqp, ← homeChain_of_swap hp]
      refine .inr (.inr ⟨hs.resides_of_not_resident fun hr => ?_, rfl, hc⟩)
      exact hn p hr (hs.store.swap_eq a p hp).2
    · rw [if_neg hqp, hal.resides_eq]
      split_ifs
      · exact .inr (.inl rfl)
      · exact .inl rfl
  · change (s'.heap.page q).assigned = -1 ∧
      (s'.heap.page q).resides = SystemQueue.default.ordinal
    rcases (hf.lt_fresh_iff q).1 hq' with rfl | hlt
    · rcases hf.page with h | ⟨h, -⟩
      · rw [hswap] at h
        exact absurd (hs.store.swap_eq a q h).1 (not_lt.2 hq)
      · rw [hf.resides_eq, if_pos rfl, homeChain, h, hassigned, hs.chains.blank q hq]
        exact ⟨rfl, rfl⟩
    · rw [hfresh] at hlt
      exact absurd hlt (not_lt.2 hq)

end Places

/-! ## Runs -/

/-- The manager `s` is the manager `t`, which has released no chain, with the live chains `V`. -/
structure Kept (t : HierarchicalMemoryManager) (L : ℤ → List PageRef) (V : List ℤ) : Prop where
  rep : t.Rep L
  settled : t.Settled
  subset : ∀ d ∈ V, d ∈ t.usrChains
  mem : ∀ d, 3 ≤ d → d < t.chainId → d ∈ t.usrChains

namespace Kept

variable {t s' : HierarchicalMemoryManager} {L : ℤ → List PageRef} {V : List ℤ} {call : Call}
  {p q : PageRef} {a c : ℤ}

theorem resident_iff_resides (h : Kept t L V) : t.Resident p ↔ (t.heap.page p).resides ≠ -1 :=
  ⟨h.settled p, h.rep.resident p⟩

/-- A manager whose pages are sent to a chain. -/
theorem sends {t' : HierarchicalMemoryManager} {L' : ℤ → List PageRef} {l : List PageRef}
    {id v : ℤ} {V' : List ℤ} (h : Kept t L V) (hs' : t'.Rep L') (hsend : Sends t t' l id v)
    (hne : id ≠ -1) (hV : ∀ d ∈ V', d ∈ V) : Kept t' L' V' where
  rep := hs'
  settled := hsend.settled hne h.settled
  subset d hd := hsend.usrChains_eq ▸ h.subset d (hV d hd)
  mem d h3 hlt := hsend.usrChains_eq ▸ h.mem d h3 (hsend.chainId_eq ▸ hlt)

/-- A manager that has created a chain. -/
theorem addChain (h : Kept t L V) (policy : EvictionPolicy) (capacity : ℤ) (bounded anchored : Bool) :
    Kept (t.addChain (.make t.chainId policy capacity bounded anchored)) L (t.chainId :: V) where
  rep := h.rep.addChain policy capacity bounded anchored
  settled := h.settled
  subset d hd := by
    rcases List.mem_cons.1 hd with rfl | hd
    · exact List.mem_cons_self
    · exact List.mem_cons_of_mem _ (h.subset d hd)
  mem d h3 hlt := by
    rcases eq_or_ne d t.chainId with rfl | hne
    · exact List.mem_cons_self
    · have hlt' : d < t.chainId + 1 := hlt
      exact List.mem_cons_of_mem _ (h.mem d h3 (by omega))

/-- The page of an address, among those in use. -/
theorem address_iff (h : Kept t L V) (hp : t.Resident p) (hq : q < t.heap.fresh) :
    (t.heap.page q).address = (t.heap.page p).address ↔ q ∈ [p] := by
  rw [List.mem_singleton]
  exact ⟨h.rep.store.address_inj q hq p (h.rep.store.lt_fresh hp), fun h => h ▸ rfl⟩

/-- A call on an address that reads its page finds it in memory. -/
theorem pageAt (h : Kept t L V) {α : Type} {f : PageRef → Java α} {x : α}
    (heq : t.pageAt a >>= f = .ok x) : ∃ p, t.Resident p ∧ (t.heap.page p).address = a := by
  obtain ⟨p, hp, -⟩ := bind_eq_ok heq
  exact ⟨p, h.rep.store.pageAt_eq_ok_iff.1 hp⟩

/-- An access to a page in memory. -/
theorem access_hit (h : Kept t L V) (hp : t.Resident p) {order : List ℤ} {o : Outcome ℤ}
    (heq : (t.withLive V).access order (t.heap.page p).address = .ok (s', o)) :
    ∃ t', s' = t'.withLive V ∧ Kept t' L V ∧ t'.size = t.size ∧ t'.Resident p ∧
      (t'.heap.page p).address = (t.heap.page p).address ∧
      Sent (t.withLive V) (.access (t.heap.page p).address) (t'.withLive V) := by
  have hlookup : t.pageTable.lookup (t.heap.page p).address ≠ -1 := fun h' =>
    h.rep.store.lookup_eq_neg_one_iff.1 h' p hp rfl
  obtain ⟨t₁, ht₁, rfl⟩ := access_withLive h.subset hlookup heq
  obtain ⟨t', ht', hs', hhit, -⟩ := h.rep.access_hit (h.rep.mem_resides h.settled hp).1 order
  rw [ht'] at ht₁
  cases ht₁
  have hid : t₁.chainId = t.chainId := by rw [hhit.rest]
  have hres : ∀ r, t₁.Resident r ↔ t.Resident r := fun r => by rw [Resident, hhit.memory_eq, Resident]
  refine ⟨t₁, rfl, ⟨hs', fun r hr => ?_, fun d hd => ?_, fun d h3 hlt => ?_⟩, by rw [hhit.rest],
    (hres p).2 hp, hhit.address_eq p, .of_eq (fun _ _ h => h) hhit.fresh_eq hhit.address_eq
      hhit.assigned_eq hhit.resides_eq hid.ge fun d => .inl⟩
  · rw [hhit.resides_eq]
    exact h.settled r ((hres r).1 hr)
  · exact hhit.usrChains_eq ▸ h.subset d hd
  · exact hhit.usrChains_eq ▸ h.mem d h3 (hid ▸ hlt)

/-- An access to a page that is not in memory: a frame is found for it, and then it is loaded. -/
theorem access_fault (h : Kept t L V) {order : List ℤ} (ho : ∀ d ∈ order, d ∈ V)
    (hres : ∀ r, t.Resident r → (t.heap.page r).address ≠ a) {o : Outcome ℤ}
    (heq : (t.withLive V).access order a = .ok (s', o)) :
    ∃ t₁ L₁ v, ∃ f : ℕ, ∃ t' p, t.allocFrame order = .ok (t₁, f, v) ∧ Frees t L t₁ L₁ v ∧
      Faults t₁ t' a p ∧ s' = t'.withLive V ∧
      Kept t' (Function.update L₁ (t.homeChain a) (p :: L₁ (t.homeChain a))) V ∧
      (t.withLive V).IsChain (t.homeChain a) := by
  -- A frame was found, or the access would have failed.
  obtain ⟨t₁, v, f, L₁, halloc, hal, hf⟩ : ∃ t₁ v, ∃ f : ℕ, ∃ L₁,
      t.allocFrame order = .ok (t₁, f, v) ∧ Frees t L t₁ L₁ v ∧
        t₁.memory.pages[f]? = some none := by
    have hlookup : (t.withLive V).pageTable.lookup a = -1 :=
      h.rep.store.lookup_eq_neg_one_iff.2 hres
    rw [HierarchicalMemoryManager.access, if_pos hlookup] at heq
    obtain ⟨r, hr, -⟩ := bind_eq_ok heq
    obtain ⟨x, hx, -⟩ := bind_eq_ok hr
    rw [allocFrame_withLive] at hx
    obtain ⟨⟨t₁, frame, v⟩, halloc, -⟩ := map_eq_ok hx
    obtain ⟨L₁, f, rfl, hal, hf⟩ :=
      h.rep.allocFrame_frees (fun d hd => h.subset d (ho d hd)) halloc
    exact ⟨t₁, v, f, L₁, halloc, hal, hf⟩
  by_cases hc : (t.withLive V).IsChain (t.homeChain a)
  · obtain ⟨t', p, heq', hfault, hs', -⟩ :=
      h.rep.access_of_frees halloc hal hf hres h.subset hc
    rw [heq'] at heq
    cases heq
    have husr : t'.usrChains = t.usrChains := hfault.usrChains_eq.trans hal.usrChains_eq
    have hid : t'.chainId = t.chainId := hfault.chainId_eq.trans hal.chainId_eq
    refine ⟨t₁, L₁, v, f, t', p, halloc, hal, hfault, rfl,
      ⟨hs', fun r hr => ?_, husr ▸ h.subset, husr ▸ hid ▸ h.mem⟩, hc⟩
    rw [hfault.resides_eq]
    split_ifs with hrp
    · rw [hal.homeChain_eq h.rep hres]
      exact h.rep.isChain_ne (hc.imp_right (h.subset _))
    · exact hal.settled h.rep h.settled r ((hfault.resident_iff.1 hr).resolve_left hrp)
  · rw [h.rep.access_error_of_frees halloc hal hf hres hc] at heq
    cases heq

theorem access (h : Kept t L V) {order : List ℤ} (ho : ∀ d ∈ order, d ∈ V) {o : Outcome ℤ}
    (heq : (t.withLive V).access order a = .ok (s', o)) :
    ∃ t' L', s' = t'.withLive V ∧ Kept t' L' V ∧ t'.size = t.size ∧
      (∃ p, t'.Resident p ∧ (t'.heap.page p).address = a) ∧
      Places (t.withLive V) (.access a) (t'.withLive V) := by
  by_cases hres : ∃ r, t.Resident r ∧ (t.heap.page r).address = a
  · obtain ⟨p, hp, rfl⟩ := hres
    obtain ⟨t', rfl, h', hsize, hp', ha, hsent⟩ := h.access_hit hp heq
    exact ⟨t', L, rfl, h', hsize, ⟨p, hp', ha⟩, hsent.places⟩
  · push Not at hres
    obtain ⟨t₁, L₁, v, f, t', p, -, hal, hfault, rfl, h', hc⟩ := h.access_fault ho hres heq
    exact ⟨t', _, rfl, h', hfault.size_eq.trans hal.size_eq,
      ⟨p, hfault.resident_iff.2 (.inl rfl), hfault.address_eq⟩, .of_fault h.rep hres hal hfault hc⟩

/-- What a call other than an access does to the places of the pages. -/
theorem step_of_ne_access (h : Kept t L V) (hst : FullStep (t.withLive V) call s')
    (hcall : ∀ a, call ≠ .access a) :
    ∃ t' L' V', s' = t'.withLive V' ∧ Kept t' L' V' ∧ t'.size = t.size ∧
      Sent (t.withLive V) call s' := by
  obtain ⟨order, o, ho, hexec⟩ := hst.returns
  -- A chain of the call was created and not released, so that it is still live.
  have hmem : ∀ chain, call.chain? = some chain → chain ∈ t.usrChains := fun chain hc =>
    h.mem chain (hst.created chain hc).1 (hst.created chain hc).2
  have hchain : ∀ chain, call.chain? = some chain → chain ≠ -1 := fun chain hc =>
    h.rep.ids.ne_neg_one (hmem chain hc)
  cases call with
  | access a => exact absurd rfl (hcall a)
  | createMemoryChain policy =>
    cases hexec
    exact ⟨_, L, t.chainId :: V, rfl, h.addChain .., rfl, .of_addChain (fun _ h => h) rfl⟩
  | createBoundedMemoryChain policy capacity =>
    cases hexec
    exact ⟨_, L, t.chainId :: V, rfl, h.addChain .., rfl, .of_addChain (fun _ h => h) rfl⟩
  | createAnchoredMemoryChain policy capacity anchored => cases hexec
  | link chain a =>
    obtain ⟨s₁, heq, h'⟩ := map_eq_ok hexec
    cases h'
    -- The call does the same on the manager with all its chains.
    obtain ⟨t₁, ht₁, rfl⟩ := link_withLive h.subset heq
    obtain ⟨p, hp, rfl⟩ := h.pageAt ht₁
    obtain ⟨t', ht', hs', hsend, -⟩ :=
      h.rep.link_of_mem (hmem chain rfl) (h.rep.mem_resides h.settled hp).1
    rw [ht'] at ht₁
    cases ht₁
    exact ⟨t₁, _, V, rfl, h.sends hs' hsend (hchain chain rfl) fun _ => id, hsend.size_eq,
      .of_sent hsend (fun q hq => h.address_iff hp hq) fun _ => id⟩
  | anchor chain a =>
    obtain ⟨s₁, heq, h'⟩ := map_eq_ok hexec
    cases h'
    obtain ⟨t₁, ht₁, rfl⟩ := anchor_withLive h.subset heq
    obtain ⟨p, hp, rfl⟩ := h.pageAt ht₁
    obtain ⟨t', ht', hs', hsend, -⟩ :=
      h.rep.anchor_of_mem (hmem chain rfl) (h.rep.mem_resides h.settled hp).1
    rw [ht'] at ht₁
    cases ht₁
    exact ⟨t₁, _, V, rfl, h.sends hs' hsend (hchain chain rfl) fun _ => id, hsend.size_eq,
      .of_sent hsend (fun q hq => h.address_iff hp hq) fun _ => id⟩
  | unlink a =>
    obtain ⟨s₁, heq, h'⟩ := map_eq_ok hexec
    cases h'
    obtain ⟨t₁, ht₁, rfl⟩ := unlink_withLive h.subset heq
    by_cases hres : ∃ r, t.Resident r ∧ (t.heap.page r).address = a
    · obtain ⟨p, hp, rfl⟩ := hres
      by_cases hd : (t.heap.page p).resides = SystemQueue.hated.ordinal
      · -- The page is hated already.
        rw [h.rep.unlink_of_hated h.settled (hd ▸ (h.rep.mem_resides h.settled hp).1)] at ht₁
        cases ht₁
        refine ⟨t, L, V, rfl, h, rfl, .refl fun q hq hsend => ?_⟩
        obtain rfl := List.mem_singleton.1 ((h.address_iff hp hq).1 hsend.1)
        exact absurd hd hsend.2.2
      · obtain ⟨t', ht', hs', hsend, -⟩ :=
          h.rep.unlink_of_mem h.settled (h.rep.mem_resides h.settled hp).1 hd
        rw [ht'] at ht₁
        cases ht₁
        refine ⟨t₁, _, V, rfl, h.sends hs' hsend (by decide) fun _ => id, hsend.size_eq,
          .of_sent hsend (fun q hq => ?_) fun _ => id⟩
        rw [← h.address_iff hp hq]
        refine ⟨And.left, fun ha => ⟨ha, ?_⟩⟩
        obtain rfl := List.mem_singleton.1 ((h.address_iff hp hq).1 ha)
        exact ⟨h.settled q hp, hd⟩
    · -- No page of the address is in memory, and the call does nothing.
      push Not at hres
      rw [h.rep.unlink_of_not_resident hres] at ht₁
      cases ht₁
      exact ⟨t, L, V, rfl, h, rfl,
        .refl fun q _ hsend => absurd hsend.1 (hres q (h.rep.resident q hsend.2.1))⟩
  | breakMemoryChain chain =>
    obtain ⟨s₁, heq, h'⟩ := map_eq_ok hexec
    cases h'
    rw [breakMemoryChain_withLive] at heq
    obtain ⟨t', ht', hs', hsend, -⟩ := h.rep.breakMemoryChain (hmem chain rfl)
    rw [ht'] at heq
    cases heq
    refine ⟨t', _, V, rfl, h.sends hs' hsend (by decide) fun _ => id, hsend.size_eq,
      .of_sent hsend (fun q _ => ?_) fun _ => id⟩
    rw [h.rep.chains.mem_iff, and_iff_left (hchain chain rfl)]
    exact Iff.rfl
  | releaseMemoryChain chain =>
    obtain ⟨s₁, heq, h'⟩ := map_eq_ok hexec
    cases h'
    rw [HierarchicalMemoryManager.releaseMemoryChain, breakMemoryChain_withLive] at heq
    obtain ⟨t', ht', hs', hsend, -⟩ := h.rep.breakMemoryChain (hmem chain rfl)
    rw [ht'] at heq
    cases heq
    -- The pages of the chain are sent away, and the chain is no longer live.
    have hV : ∀ d ∈ V.erase chain, d ∈ V := fun d => List.mem_of_mem_erase
    have hsent : Sent (t.withLive V) (.releaseMemoryChain chain) (t'.withLive (V.erase chain)) :=
      .of_sent hsend (fun q _ => by
        rw [h.rep.chains.mem_iff, and_iff_left (hchain chain rfl)]
        exact Iff.rfl) hV
    exact ⟨t', _, V.erase chain, rfl, h.sends hs' hsend (by decide) hV, hsend.size_eq, hsent⟩

/-- What a call does to the places of the pages. -/
theorem step (h : Kept t L V) (hst : FullStep (t.withLive V) call s') :
    ∃ t' L' V', s' = t'.withLive V' ∧ Kept t' L' V' ∧ t'.size = t.size ∧
      Places (t.withLive V) call s' := by
  by_cases hcall : ∃ a, call = .access a
  · obtain ⟨a, rfl⟩ := hcall
    obtain ⟨order, o, ho, hexec⟩ := hst.returns
    obtain ⟨⟨s₁, o₁⟩, heq, h'⟩ := map_eq_ok hexec
    cases h'
    obtain ⟨t', L', rfl, h', hsize, -, hpl⟩ := h.access (fun d => ho.mem_iff.1) heq
    exact ⟨t', L', V, rfl, h', hsize, hpl⟩
  · push Not at hcall
    obtain ⟨t', L', V', rfl, h', hsize, hsent⟩ := h.step_of_ne_access hst hcall
    exact ⟨t', L', V', rfl, h', hsize, hsent.places⟩

end Kept

/-- The managers reached by calls on any chains that were created. Those without frames have no pages. -/
theorem reachable_kept {n : ℕ} {s : HierarchicalMemoryManager} (hs : (FullSystem n).Reachable s) :
    (∃ t L V, s = t.withLive V ∧ Kept t L V ∧ t.size = n) ∧ (0 < s.heap.fresh → 0 < n) := by
  refine hs.invariant (I := fun s => (∃ t L V, s = t.withLive V ∧ Kept t L V ∧ t.size = n) ∧
    (0 < s.heap.fresh → 0 < n)) ?_ ?_
  · rintro _ ⟨clock, draws, rfl⟩
    refine ⟨⟨.make n clock draws, _, [], rfl, ⟨.make n clock draws, Rep.settled_make n clock draws,
      fun _ hd => absurd hd List.not_mem_nil, fun d h3 hlt => ?_⟩, rfl⟩,
      fun h => absurd h (lt_irrefl 0)⟩
    exact absurd hlt (not_lt.2 h3)
  · rintro _ call s' ⟨⟨t, L, V, rfl, h, hsize⟩, hpos⟩ - hst
    obtain ⟨t', L', V', rfl, h', hsize', hpl⟩ := h.step hst
    refine ⟨⟨t', L', V', rfl, h', hsize'.trans hsize⟩, fun hlt => ?_⟩
    rcases Nat.eq_zero_or_pos t.heap.fresh with hf | hf
    · -- The first page is new, and in memory.
      have hnew := (hpl.of_new 0 hf.le hlt).2
      have hres : t'.Resident 0 := h'.rep.resident 0 (hnew ▸ by decide)
      have hlen := List.length_pos_of_mem hres
      rw [h'.rep.store.length_eq, hsize', hsize] at hlen
      exact hlen
    · exact hpos hf

/-- The runs of `replay` are runs of the manager. -/
theorem runBy_replay {n : ℕ} {s s' : HierarchicalMemoryManager} {calls : List Call}
    {P : Call → Prop} (hs : (FullSystem n).Reachable s) (hP : ∀ call ∈ calls, P call)
    (h : replay s calls = some s') : (FullSystem n).RunBy (fun _ call => P call) s calls s' := by
  induction calls generalizing s with
  | nil =>
    cases h
    exact .nil
  | cons call calls ih =>
    rw [replay] at h
    split_ifs at h with hlive
    split at h
    · rename_i s₁ o heq
      have hst : FullStep s call s₁ := by
        refine ⟨fun chain hc => ?_, s.usrChains, o, .refl _, heq⟩
        have hmem : chain ∈ s.usrChains := by simpa [hc] using hlive
        obtain ⟨⟨t, L, V, rfl, hk, -⟩, -⟩ := reachable_kept hs
        exact hk.rep.ids.range chain (hk.subset chain hmem)
      exact .cons (hP call List.mem_cons_self) hst
        (ih (.step hs trivial hst) (fun d hd => hP d (List.mem_cons_of_mem _ hd)) h)
    · cases h

/-- What is computed of the state a list of calls leads to holds of a reachable state. -/
theorem exists_fullReachable {n : ℕ} {Q : HierarchicalMemoryManager → Bool} (calls : List Call)
    (h : (replay (.make n {} fun _ => 0) calls).any Q = true) :
    ∃ s, (FullSystem n).Reachable s ∧ Q s = true := by
  obtain ⟨s, hs, hq⟩ := (Option.any_eq_true ..).1 h
  have hinit : (FullSystem n).Reachable (.make n {} fun _ => 0) := .init ⟨_, _, rfl⟩
  exact ⟨s, (runBy_replay (P := fun _ => True) hinit (fun _ _ => trivial) hs).reachable hinit, hq⟩

/-- What is computed of the states that lists of calls lead to, before a call and some time after it,
    holds of a run. -/
theorem exists_run {n : ℕ} {P : Call → Prop} {Q : HierarchicalMemoryManager →
    HierarchicalMemoryManager → Bool} (before : List Call) (call : Call) (after : List Call)
    (hP : ∀ c ∈ after, P c) (h : ((replay (.make n {} fun _ => 0) before).any fun s =>
      (replay s (call :: after)).any (Q s)) = true) :
    ∃ s s₁ s', (FullSystem n).Reachable s ∧ FullStep s call s₁ ∧
      (FullSystem n).RunBy (fun _ c => P c) s₁ after s' ∧ Q s s' = true := by
  obtain ⟨s, hs, h⟩ := (Option.any_eq_true ..).1 h
  obtain ⟨s', hs', hq⟩ := (Option.any_eq_true ..).1 h
  have hinit : (FullSystem n).Reachable (.make n {} fun _ => 0) := .init ⟨_, _, rfl⟩
  have hreach : (FullSystem n).Reachable s :=
    (runBy_replay (P := fun _ => True) hinit (fun _ _ => trivial) hs).reachable hinit
  obtain ⟨s₁, hs₁, hrun⟩ := replay_cons hs'
  have hst : FullStep s call s₁ := by
    cases runBy_replay (P := fun _ => True) hreach (fun _ _ => trivial) hs₁ with
    | cons _ hst hnil =>
      cases hnil
      exact hst
  exact ⟨s, s₁, s', hreach, hst, runBy_replay (hreach.step trivial hst) hP hrun, hq⟩

end Mcpq.Hierarchical
