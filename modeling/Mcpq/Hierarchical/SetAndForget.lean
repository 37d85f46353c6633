import Mcpq.Hierarchical.Places

/-!
# Set and forget

A page that is linked to a chain stays assigned to it when it is evicted, and is linked to it again
when it is loaded, until the link is broken (`set_and_forget`).

The links that are broken, and which of them stay so, are the subject of the next module.
-/

namespace Mcpq.Hierarchical

open HierarchicalMemoryManager

namespace HierarchicalMemoryManager

variable {s : HierarchicalMemoryManager} {L : ℤ → List PageRef} {p q : PageRef} {a c : ℤ}

/-- The page `p` is the page of the address `a`. -/
def PageOf (s : HierarchicalMemoryManager) (a : ℤ) (p : PageRef) : Prop :=
  p < s.heap.fresh ∧ (s.heap.page p).address = a

/-- The page `p` is a member of the chain `c`. -/
def Member (s : HierarchicalMemoryManager) (c : ℤ) (p : PageRef) : Prop :=
  ∃ l, (s.chains c).iterate s.heap = .ok l ∧ p ∈ l

/-- A page in memory that is assigned to a user chain resides on it. -/
structure AssignedOk (s : HierarchicalMemoryManager) : Prop where
  lt : ∀ q < s.heap.fresh, (s.heap.page q).assigned < s.chainId
  resides_eq : ∀ q < s.heap.fresh, (s.heap.page q).resides ≠ -1 → 3 ≤ (s.heap.page q).assigned →
    (s.heap.page q).resides = (s.heap.page q).assigned

theorem Rep.member_iff (hs : s.Rep L) : s.Member c p ↔ (s.heap.page p).resides = c ∧ c ≠ -1 := by
  rw [← hs.chains.mem_iff, Member, hs.iterate]
  exact ⟨fun ⟨l, hl, hp⟩ => Except.ok.inj hl ▸ hp, fun hp => ⟨_, rfl, hp⟩⟩

theorem Rep.pageOf_inj (hs : s.Rep L) (hp : s.PageOf a p) (hq : s.PageOf a q) : p = q :=
  hs.store.address_inj p hp.1 q hq.1 (hp.2.trans hq.2.symm)

end HierarchicalMemoryManager

theorem home_of_le {id : ℤ} (h : 3 ≤ id) : home id = id := if_pos (by omega)

theorem home_lt {id : ℤ} (h : id < 3) : home id < 3 := by
  rw [home]
  split_ifs
  · exact h
  · decide

variable {n : ℕ} {s s' s₁ s₂ : HierarchicalMemoryManager} {call : Call} {calls : List Call}
  {p q : PageRef} {a c : ℤ}

/-- A call assigns pages to a chain that was created, to which it sends them if it is a user
    chain. -/
theorem Call.assignment_eq (h3 : 3 ≤ s.chainId)
    (hcreated : ∀ chain, call.chain? = some chain → 3 ≤ chain ∧ chain < s.chainId) :
    call.assignment < s.chainId ∧ (3 ≤ call.assignment → call.destination = call.assignment) := by
  have hsys : SystemQueue.default.ordinal < s.chainId ∧
      (3 ≤ SystemQueue.default.ordinal →
        SystemQueue.hated.ordinal = SystemQueue.default.ordinal) := by
    simp only [SystemQueue.ordinal]
    omega
  cases call with
  | link chain a => exact ⟨(hcreated chain rfl).2, fun _ => rfl⟩
  | anchor chain a => exact ⟨(hcreated chain rfl).2, fun _ => rfl⟩
  | _ => exact hsys

theorem Places.assignedOk (h : Places s call s') (h3 : 3 ≤ s.chainId)
    (hcreated : ∀ chain, call.chain? = some chain → 3 ≤ chain ∧ chain < s.chainId)
    (hs : s.AssignedOk) : s'.AssignedOk := by
  obtain ⟨hlt, hdest⟩ := Call.assignment_eq h3 hcreated
  have hid := h.chainId_le
  refine ⟨fun q hq => ?_, fun q hq hr ha => ?_⟩
  · rcases Nat.lt_or_ge q s.heap.fresh with hold | hnew
    · by_cases hsend : call.Sends s q
      · rw [(h.of_sends q hold hsend).2]
        omega
      · rw [h.assigned_eq q hold hsend]
        have := hs.lt q hold
        omega
    · rw [(h.of_new q hnew hq).1]
      omega
  · rcases Nat.lt_or_ge q s.heap.fresh with hold | hnew
    · by_cases hsend : call.Sends s q
      · rw [(h.of_sends q hold hsend).2] at ha ⊢
        rw [(h.of_sends q hold hsend).1, hdest ha]
      · rw [h.assigned_eq q hold hsend] at ha ⊢
        rcases h.resides q hold hsend with heq | heq | ⟨-, heq, -⟩
        · rw [heq] at hr ⊢
          exact hs.resides_eq q hold hr ha
        · exact absurd heq hr
        · rw [heq, home_of_le ha]
    · rw [(h.of_new q hnew hq).1] at ha
      omega

/-- What holds of the states reached. -/
theorem reachable_assigned (hs : (FullSystem n).Reachable s) :
    (∃ t L V, s = t.withLive V ∧ Kept t L V ∧ t.size = n) ∧ s.AssignedOk := by
  refine hs.invariant (I := fun s => (∃ t L V, s = t.withLive V ∧ Kept t L V ∧ t.size = n) ∧
    s.AssignedOk) ?_ ?_
  · rintro _ ⟨clock, draws, rfl⟩
    refine ⟨(reachable_kept (.init ⟨clock, draws, rfl⟩ : (FullSystem n).Reachable _)).1,
      fun q hq => ?_, fun q hq => ?_⟩
    · exact absurd hq (Nat.not_lt_zero q)
    · exact absurd hq (Nat.not_lt_zero q)
  · rintro _ call s' ⟨⟨t, L, V, rfl, h, hsize⟩, hs⟩ - hst
    obtain ⟨t', L', V', rfl, h', hsize', hpl⟩ := h.step hst
    exact ⟨⟨t', L', V', rfl, h', hsize'.trans hsize⟩,
      hpl.assignedOk h.rep.ids.three_le hst.created hs⟩

/-- The places of the pages after a call, in the states reached. -/
theorem reachable_places (hs : (FullSystem n).Reachable s) (hst : FullStep s call s') :
    Places s call s' := by
  obtain ⟨⟨t, L, V, rfl, h, -⟩, -⟩ := reachable_assigned hs
  obtain ⟨t', L', V', -, -, -, hpl⟩ := h.step hst
  exact hpl

theorem reachable_member_iff (hs : (FullSystem n).Reachable s) :
    s.Member c p ↔ (s.heap.page p).resides = c ∧ c ≠ -1 := by
  obtain ⟨⟨t, L, V, rfl, h, -⟩, -⟩ := reachable_assigned hs
  exact h.rep.member_iff

theorem reachable_resident_iff (hs : (FullSystem n).Reachable s) :
    s.Resident p ↔ (s.heap.page p).resides ≠ -1 := by
  obtain ⟨⟨t, L, V, rfl, h, -⟩, -⟩ := reachable_assigned hs
  exact h.resident_iff_resides

theorem reachable_pageOf_inj (hs : (FullSystem n).Reachable s) (hp : s.PageOf a p)
    (hq : s.PageOf a q) : p = q := by
  obtain ⟨⟨t, L, V, rfl, h, -⟩, -⟩ := reachable_assigned hs
  exact h.rep.pageOf_inj hp hq

/-- The page of an address is in memory after an access to it. -/
theorem resident_of_access (hs : (FullSystem n).Reachable s) (hst : FullStep s (.access a) s') :
    ∃ p, s'.PageOf a p ∧ s'.Resident p := by
  obtain ⟨⟨t, L, V, rfl, h, -⟩, -⟩ := reachable_assigned hs
  obtain ⟨order, o, ho, hexec⟩ := hst.returns
  obtain ⟨⟨s₁, o₁⟩, heq, h'⟩ := map_eq_ok hexec
  cases h'
  obtain ⟨t', L', rfl, h', -, ⟨p, hp, ha⟩, -⟩ := h.access (fun d => ho.mem_iff.1) heq
  exact ⟨p, ⟨h'.rep.store.lt_fresh hp, ha⟩, hp⟩

/-- The page of an address that is linked is in memory. -/
theorem resident_of_link (hs : (FullSystem n).Reachable s) (hst : FullStep s call s')
    (hcall : call = .link c a ∨ call = .anchor c a) : ∃ p, s.PageOf a p ∧ s.Resident p := by
  obtain ⟨⟨t, L, V, rfl, h, -⟩, -⟩ := reachable_assigned hs
  obtain ⟨order, o, -, hexec⟩ := hst.returns
  obtain ⟨p, hp, ha⟩ : ∃ p, t.Resident p ∧ (t.heap.page p).address = a := by
    rcases hcall with rfl | rfl
    · obtain ⟨s₁, heq, -⟩ := map_eq_ok hexec
      obtain ⟨p, hp, -⟩ := bind_eq_ok heq
      exact ⟨p, h.rep.store.pageAt_eq_ok_iff.1 hp⟩
    · obtain ⟨s₁, heq, -⟩ := map_eq_ok hexec
      obtain ⟨p, hp, -⟩ := bind_eq_ok heq
      exact ⟨p, h.rep.store.pageAt_eq_ok_iff.1 hp⟩
  exact ⟨p, ⟨h.rep.store.lt_fresh hp, ha⟩, hp⟩

/-! ## Links -/

/-- The call breaks the link of the address `a` to the chain `c`, or makes another one. -/
def Call.Undoes (c a : ℤ) : Call → Prop
  | .link _ address => address = a
  | .anchor _ address => address = a
  | .unlink address => address = a
  | .breakMemoryChain chain => chain = c
  | .releaseMemoryChain chain => chain = c
  | _ => False

/-- The page of the address `a` is assigned to the chain `c`, and resides on it or on none. -/
def AssignedTo (s : HierarchicalMemoryManager) (c a : ℤ) : Prop :=
  3 ≤ c ∧ ∃ p, s.PageOf a p ∧ (s.heap.page p).assigned = c ∧
    ((s.heap.page p).resides = c ∨ (s.heap.page p).resides = -1)

/-- A call that does not undo the link keeps it. -/
theorem Places.assignedTo (h : Places s call s')
    (hcreated : ∀ chain, call.chain? = some chain → 3 ≤ chain ∧ chain < s.chainId)
    (hc : ¬call.Undoes c a) (hs : AssignedTo s c a) : AssignedTo s' c a := by
  obtain ⟨hc3, p, ⟨hlt, haddr⟩, hassigned, hres⟩ := hs
  have hchain : ∀ chain, call.chain? = some chain → (s.heap.page p).resides = chain →
      chain = c := fun chain hd heq => by
    rcases hres with hres | hres
    · exact heq.symm.trans hres
    · have := (hcreated chain hd).1
      omega
  have hsend : ¬call.Sends s p := fun hsend => by
    cases call with
    | link chain b => exact hc (hsend.symm.trans haddr)
    | anchor chain b => exact hc (hsend.symm.trans haddr)
    | unlink b => exact hc (hsend.1.symm.trans haddr)
    | breakMemoryChain chain => exact hc (hchain chain rfl hsend)
    | releaseMemoryChain chain => exact hc (hchain chain rfl hsend)
    | _ => exact hsend
  refine ⟨hc3, p, ⟨hlt.trans_le h.fresh_le, (h.address_eq p hlt).trans haddr⟩,
    (h.assigned_eq p hlt hsend).trans hassigned, ?_⟩
  rcases h.resides p hlt hsend with heq | heq | ⟨-, heq, -⟩
  · rwa [heq]
  · exact .inr heq
  · rw [heq, hassigned, home_of_le hc3]
    exact .inl rfl

/-- The page of an address that is linked is assigned to the chain. -/
theorem assignedTo_of_link (hs : (FullSystem n).Reachable s) (hst : FullStep s call s')
    (hcall : call = .link c a ∨ call = .anchor c a) : AssignedTo s' c a := by
  have h := reachable_places hs hst
  obtain ⟨p, ⟨hlt, haddr⟩, -⟩ := resident_of_link hs hst hcall
  have hcreated : 3 ≤ c ∧ c < s.chainId := by
    rcases hcall with rfl | rfl
    · exact hst.created c rfl
    · exact hst.created c rfl
  obtain ⟨hr, ha⟩ : (s'.heap.page p).resides = c ∧ (s'.heap.page p).assigned = c := by
    rcases hcall with rfl | rfl
    · exact h.of_sends p hlt haddr
    · exact h.of_sends p hlt haddr
  exact ⟨hcreated.1, p, ⟨hlt.trans_le h.fresh_le, (h.address_eq p hlt).trans haddr⟩, ha, .inl hr⟩

/-- A page that has been linked to a chain is assigned to it, and is a member of it whenever it is in
    memory, until the link is undone; and so it is after each access to it. -/
theorem set_and_forget (hs : (FullSystem n).Reachable s) (hst : FullStep s call s₁)
    (hcall : call = .link c a ∨ call = .anchor c a)
    (hrun : (FullSystem n).RunBy (fun _ call => ¬call.Undoes c a) s₁ calls s') :
    (∃ p, s'.PageOf a p ∧ (s'.heap.page p).assigned = c ∧ (s'.Resident p → s'.Member c p)) ∧
      ∀ s₂, FullStep s' (.access a) s₂ → ∃ p, s₂.PageOf a p ∧ s₂.Resident p ∧ s₂.Member c p := by
  -- The invariant of the run.
  have hstep : ∀ s call s', (FullSystem n).Reachable s ∧ AssignedTo s c a → ¬call.Undoes c a →
      FullStep s call s' → (FullSystem n).Reachable s' ∧ AssignedTo s' c a := by
    rintro s call s' ⟨hs, ha⟩ hc hst
    exact ⟨.step hs trivial hst, (reachable_places hs hst).assignedTo hst.created hc ha⟩
  have hmember : ∀ s, (FullSystem n).Reachable s ∧ AssignedTo s c a → ∃ p, s.PageOf a p ∧
      (s.heap.page p).assigned = c ∧ (s.Resident p → s.Member c p) := by
    rintro s ⟨hs, hc3, p, hp, hassigned, hres⟩
    refine ⟨p, hp, hassigned, fun hr => (reachable_member_iff hs).2 ⟨?_, ?_⟩⟩
    · exact hres.resolve_right ((reachable_resident_iff hs).1 hr)
    · omega
  have hs' := hrun.invariant (I := fun s => (FullSystem n).Reachable s ∧ AssignedTo s c a)
    hstep ⟨hs.step trivial hst, assignedTo_of_link hs hst hcall⟩
  refine ⟨hmember s' hs', fun s₂ hst₂ => ?_⟩
  have hs₂ := hstep s' (.access a) s₂ hs' (fun h => h) hst₂
  obtain ⟨p, hp, -, hmem⟩ := hmember s₂ hs₂
  obtain ⟨q, hq, hres⟩ := resident_of_access hs'.1 hst₂
  obtain rfl := reachable_pageOf_inj hs₂.1 hp hq
  exact ⟨p, hp, hres, hmem hres⟩

/-- A page that is linked to a chain, and evicted from a manager of one frame. -/
theorem set_and_forget_evicted : ∃ s s₁ s', (FullSystem 1).Reachable s ∧
    FullStep s (.link 3 1) s₁ ∧
    (FullSystem 1).RunBy (fun _ call => ¬call.Undoes 3 1) s₁ [.access 2] s' ∧
    s'.pageTable.lookup 1 = -1 ∧
    (∃ p, s'.PageOf 1 p ∧ (s'.heap.page p).assigned = 3 ∧ (s'.Resident p → s'.Member 3 p)) ∧
      ∀ s₂, FullStep s' (.access 1) s₂ → ∃ p, s₂.PageOf 1 p ∧ s₂.Resident p ∧ s₂.Member 3 p := by
  obtain ⟨s, s₁, s', hs, hst, hrun, hq⟩ := exists_run (n := 1) (P := fun call => ¬call.Undoes 3 1)
    (Q := fun _ s' => s'.pageTable.lookup 1 = -1) [.createMemoryChain .lru, .access 1] (.link 3 1)
    [.access 2] (by simp [Call.Undoes]) (by decide)
  exact ⟨s, s₁, s', hs, hst, hrun, of_decide_eq_true hq,
    set_and_forget hs hst (.inl rfl) hrun⟩

end Mcpq.Hierarchical
