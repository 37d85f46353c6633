import Mcpq.Hierarchical.Places

/-!
# The capacities of chains

A chain created with a capacity is to evict one of its pages to the spillover chain when another page is
linked to it while it is full. No chain does: the constructor they all go through leaves them unbounded. So
a chain stays within its capacity as long as no page is linked to it while it is full (`Call.Overfills`),
by `link`, by `anchor` or by a page fault, and no page ever spills over: `bounded_chain`.

Which page leaves its chain in a page fault may depend on the order in which the map of the user chains is
iterated, so that the steps are labelled with it (`OrderedSystem`).
-/

namespace Mcpq.Hierarchical

open HierarchicalMemoryManager

namespace HierarchicalMemoryManager

/-- The chain `id` holds at most `capacity` pages. -/
def AtMost (s : HierarchicalMemoryManager) (id capacity : ℤ) : Prop :=
  ∃ l, (s.chains id).iterate s.heap = .ok l ∧ (l.length : ℤ) ≤ capacity

/-- The chain `id` is full, were its capacity `capacity`. -/
def Full (s : HierarchicalMemoryManager) (id capacity : ℤ) : Prop := capacity ≤ (s.chains id).size

/-- Memory is full, and the page that `evict` chooses is on the chain `id`. -/
def GivesUp (s : HierarchicalMemoryManager) (order : List ℤ) (id : ℤ) : Prop :=
  s.memory.freeFrame = -1 ∧ ∃ s₁ best p, s.selectVictim order = .ok (s₁, best) ∧ best.page = some p ∧
    (s.heap.page p).resides = id

theorem selectVictim_of_evict {s s' : HierarchicalMemoryManager} {order : List ℤ} {p : PageRef}
    (heq : s.evict order = .ok (s', p)) :
    ∃ s₁ best, s.selectVictim order = .ok (s₁, best) ∧ best.page = some p := by
  obtain ⟨⟨s₁, best⟩, hsel, heq⟩ := bind_eq_ok heq
  obtain ⟨chain, -, heq⟩ := bind_eq_ok heq
  obtain ⟨q, hq, heq⟩ := bind_eq_ok heq
  obtain ⟨r, -, heq⟩ := bind_eq_ok heq
  obtain ⟨-, rfl⟩ := Prod.mk.inj (Except.ok.inj heq)
  refine ⟨s₁, best, hsel, ?_⟩
  cases hpage : best.page with
  | none =>
    rw [hpage] at hq
    cases hq
  | some r =>
    rw [hpage] at hq
    exact congrArg some (Except.ok.inj hq)

/-- The chain gives up the page that is evicted for the frame. -/
theorem givesUp_iff {s s₁ : HierarchicalMemoryManager} {order : List ℤ} {f id : ℤ} {v : Option PageRef}
    (halloc : s.allocFrame order = .ok (s₁, f, v)) :
    s.GivesUp order id ↔ ∃ p, v = some p ∧ (s.heap.page p).resides = id := by
  rw [allocFrame] at halloc
  dsimp only at halloc
  rw [GivesUp]
  split_ifs at halloc with hfull
  · obtain ⟨⟨s₂, p⟩, hev, halloc⟩ := bind_eq_ok halloc
    obtain ⟨-, -, rfl⟩ := Prod.mk.inj (Except.ok.inj halloc) |>.imp_right Prod.mk.inj
    obtain ⟨s₃, best, hsel, hbest⟩ := selectVictim_of_evict hev
    constructor
    · rintro ⟨-, s₄, best', q, hsel', hq, hr⟩
      obtain ⟨-, rfl⟩ := Prod.mk.inj (Except.ok.inj (hsel.symm.trans hsel'))
      exact ⟨q, hbest.symm.trans hq, hr⟩
    · rintro ⟨q, hq, hr⟩
      exact ⟨hfull, s₃, best, q, hsel, hbest.trans hq, hr⟩
  · obtain ⟨-, -, rfl⟩ := Prod.mk.inj (Except.ok.inj halloc) |>.imp_right Prod.mk.inj
    refine iff_of_false (fun h => hfull h.1) ?_
    rintro ⟨p, hp, -⟩
    cases hp

end HierarchicalMemoryManager

/-- A call that returns normally, with the order in which it iterates the map of the user chains. -/
structure OrderedStep (s : HierarchicalMemoryManager) (x : Call × List ℤ)
    (s' : HierarchicalMemoryManager) : Prop where
  created : ∀ chain, x.1.chain? = some chain → 3 ≤ chain ∧ chain < s.chainId
  perm : x.2.Perm s.usrChains
  returns : ∃ o, x.1.exec x.2 s = .ok (s', o)

/-- The runs of a manager of capacity `n`, with these orders. -/
def OrderedSystem (n : ℕ) : Transition HierarchicalMemoryManager (Call × List ℤ) where
  init := (FullSystem n).init
  step := OrderedStep

theorem fullStep_iff {s s' : HierarchicalMemoryManager} {call : Call} :
    FullStep s call s' ↔ ∃ order, OrderedStep s (call, order) s' :=
  ⟨fun ⟨hcreated, order, o, ho, hexec⟩ => ⟨order, hcreated, ho, o, hexec⟩,
    fun ⟨order, hcreated, ho, o, hexec⟩ => ⟨hcreated, order, o, ho, hexec⟩⟩

theorem OrderedStep.full {s s' : HierarchicalMemoryManager} {x : Call × List ℤ} (h : OrderedStep s x s') :
    FullStep s x.1 s' :=
  fullStep_iff.2 ⟨x.2, h⟩

/-- Every run has its orders. -/
theorem exists_orderedRun {n : ℕ} {s s' : HierarchicalMemoryManager} {P : Call → Prop} {calls : List Call}
    (h : (FullSystem n).RunBy (fun _ call => P call) s calls s') :
    ∃ xs, xs.map Prod.fst = calls ∧ (OrderedSystem n).RunBy (fun _ x => P x.1) s xs s' := by
  induction h with
  | nil => exact ⟨[], rfl, .nil⟩
  | cons hP hst _ ih =>
    obtain ⟨order, hst⟩ := fullStep_iff.1 hst
    obtain ⟨xs, hxs, hrun⟩ := ih
    exact ⟨(_, order) :: xs, congrArg (List.cons _) hxs, .cons hP hst hrun⟩

namespace Call

/-- The chain and the address that `link` and `anchor` are given. -/
def target? : Call → Option (ℤ × ℤ)
  | link chain address => some (chain, address)
  | anchor chain address => some (chain, address)
  | _ => none

/-- The call links a page that is not on the chain `id` to it. -/
def Adds (s : HierarchicalMemoryManager) (id : ℤ) (call : Call) : Prop :=
  ∃ address p, call.target? = some (id, address) ∧ s.pageAt address = .ok p ∧
    (s.heap.page p).resides ≠ id

/-- The call loads a page that is assigned to the chain `id`, which does not give up a page for it. -/
def Refills (s : HierarchicalMemoryManager) (id : ℤ) (order : List ℤ) : Call → Prop
  | access address => s.pageTable.lookup address = -1 ∧ s.homeChain address = id ∧ ¬s.GivesUp order id
  | _ => False

/-- The call puts another page on the chain `id`, which is full. -/
def Overfills (s : HierarchicalMemoryManager) (id capacity : ℤ) (order : List ℤ) (call : Call) : Prop :=
  s.Full id capacity ∧ (call.Adds s id ∨ call.Refills s id order)

/-- If the call links a page to the chain `id`, which is full, one of the pages of the chain goes to the
    spillover chain, and stays in memory. -/
def Spills (s : HierarchicalMemoryManager) (id capacity : ℤ) (call : Call)
    (s' : HierarchicalMemoryManager) : Prop :=
  call.Adds s id → s.Full id capacity → ∃ l, (s.chains id).iterate s.heap = .ok l ∧ ∃ q ∈ l,
    (s'.heap.page q).resides = SystemQueue.spillover.ordinal ∧ s'.Resident q ∧
      ∀ r ∈ l, r ≠ q → (s'.heap.page r).resides = id

theorem of_target {call : Call} {id a : ℤ} (h : call.target? = some (id, a)) :
    call.destination = id ∧ (∀ s q, call.Sends s q ↔ (s.heap.page q).address = a) ∧
      ∀ b, call ≠ .access b := by
  cases call <;> cases h <;> exact ⟨rfl, fun _ _ => Iff.rfl, fun _ h => nomatch h⟩

/-- The calls that send pages elsewhere than to a chain they are given send them to the hated chain. -/
theorem target_of_destination {call : Call} {id : ℤ} (h3 : 3 ≤ id) (h : call.destination = id) :
    ∃ a, call.target? = some (id, a) := by
  have hne : SystemQueue.hated.ordinal ≠ id := fun h0 => absurd h3 (h0 ▸ by decide)
  cases call with
  | link chain a => exact ⟨a, congrArg (fun c => some (c, a)) h⟩
  | anchor chain a => exact ⟨a, congrArg (fun c => some (c, a)) h⟩
  | _ => exact absurd h hne

end Call

/-- The page of the address that `link` or `anchor` is given is in memory. -/
theorem FullStep.pageAt_eq {s s' : HierarchicalMemoryManager} {call : Call} {id a : ℤ}
    (hst : FullStep s call s') (h : call.target? = some (id, a)) : ∃ p, s.pageAt a = .ok p := by
  obtain ⟨order, o, -, hexec⟩ := hst.returns
  cases call <;> cases h <;>
  · obtain ⟨s₁, heq, -⟩ := map_eq_ok hexec
    obtain ⟨p, hp, -⟩ := bind_eq_ok heq
    exact ⟨p, hp⟩

namespace Kept

variable {t t' s' : HierarchicalMemoryManager} {L L' : ℤ → List PageRef} {V V' : List ℤ} {call : Call}
  {p q : PageRef} {a id capacity : ℤ}

theorem atMost_iff (h : Kept t L V) :
    (t.withLive V).AtMost id capacity ↔ ((L id).length : ℤ) ≤ capacity := by
  have hl : ((t.withLive V).chains id).iterate (t.withLive V).heap = .ok (L id) := h.rep.iterate id
  refine ⟨fun ⟨l, heq, hle⟩ => ?_, fun hle => ⟨L id, hl, hle⟩⟩
  rw [hl] at heq
  rwa [Except.ok.inj heq]

theorem full_iff (h : Kept t L V) : (t.withLive V).Full id capacity ↔ capacity ≤ ((L id).length : ℤ) := by
  rw [Full, show ((t.withLive V).chains id).size = _ from (h.rep.chains.holds id).size]

/-- The pages of a user chain after a call that loads no page. -/
theorem mem_of_sent (h : Kept t L V) (h' : Kept t' L' V') (hsent : Sent (t.withLive V) call (t'.withLive V'))
    (hq : q ∈ L' id) : q ∈ L id ∨ call.Sends (t.withLive V) q ∧ call.destination = id := by
  have hlt : q < t.heap.fresh := hsent.fresh_eq ▸ h'.rep.lt_fresh hq
  obtain ⟨hr, hne⟩ := (h'.rep.chains.mem_iff id q).1 hq
  by_cases hs : call.Sends (t.withLive V) q
  · exact .inr ⟨hs, (hsent.of_sends q hlt hs).1.symm.trans hr⟩
  · exact .inl ((h.rep.chains.mem_iff id q).2 ⟨(hsent.of_not_sends q hlt hs).1.symm.trans hr, hne⟩)

/-- The page that `link` or `anchor` sends is the page of its address. -/
theorem eq_of_sends (h : Kept t L V) (hp : (t.withLive V).pageAt a = .ok p) (hq : q < t.heap.fresh)
    (ha : (t.heap.page q).address = a) : q = p := by
  obtain ⟨hres, hpa⟩ := h.rep.store.pageAt_eq_ok_iff.1 (show t.pageAt a = .ok p from hp)
  exact h.rep.store.address_inj q hq p (h.rep.store.lt_fresh hres) (ha.trans hpa.symm)

/-- A call other than an access that puts no page on a full chain. -/
theorem atMost_of_ne_access (h : Kept t L V) (hst : FullStep (t.withLive V) call s')
    (hcall : ∀ a, call ≠ .access a) (h3 : 3 ≤ id) (hle : ((L id).length : ℤ) ≤ capacity)
    (hover : ¬(call.Adds (t.withLive V) id ∧ (t.withLive V).Full id capacity)) :
    s'.AtMost id capacity := by
  obtain ⟨t', L', V', rfl, h', -, hsent⟩ := h.step_of_ne_access hst hcall
  rw [h'.atMost_iff]
  by_cases hd : call.destination = id
  · obtain ⟨a, ha⟩ := Call.target_of_destination h3 hd
    obtain ⟨p, hp⟩ := hst.pageAt_eq ha
    -- The page of the address is the only one that may have joined the chain.
    have hsub : L' id ⊆ p :: L id := fun q hq => by
      rcases h.mem_of_sent h' hsent hq with hq' | ⟨hs, -⟩
      · exact List.mem_cons_of_mem p hq'
      · have hlt : q < t.heap.fresh := hsent.fresh_eq ▸ h'.rep.lt_fresh hq
        rw [h.eq_of_sends hp hlt (((Call.of_target ha).2.1 _ q).1 hs)]
        exact List.mem_cons_self
    by_cases hpid : p ∈ L id
    · have := ((h'.rep.nodup id).subperm fun q hq =>
        (List.mem_cons.1 (hsub hq)).elim (fun hqp => hqp ▸ hpid) fun hq => hq).length_le
      omega
    · have hroom : ¬(t.withLive V).Full id capacity := fun hf =>
        hover ⟨⟨a, p, ha, hp, fun hr => hpid ((h.rep.chains.mem_iff id p).2 ⟨hr, by omega⟩)⟩, hf⟩
      rw [h.full_iff] at hroom
      have := ((h'.rep.nodup id).subperm hsub).length_le
      rw [List.length_cons] at this
      omega
  · have := ((h'.rep.nodup id).subperm fun q hq =>
      (h.mem_of_sent h' hsent hq).resolve_right fun hs => hd hs.2).length_le
    omega

/-- A chain loses the page that is evicted, if it is on it. -/
theorem length_frees (h : Kept t L V) {t₁ : HierarchicalMemoryManager} {L₁ : ℤ → List PageRef}
    {v : Option PageRef} (hal : Frees t L t₁ L₁ v) (id : ℤ) : (L₁ id).length +
      (if ∃ p, v = some p ∧ (t.heap.page p).resides = id then 1 else 0) = (L id).length := by
  cases hal with
  | free =>
    rw [if_neg fun ⟨p, hp, _⟩ => nomatch hp]
    rfl
  | @remove _ d p _ hrem =>
    have hres := ((h.rep.chains.mem_iff d p).1 hrem.mem).1
    have hiff : (∃ q, some p = some q ∧ (t.heap.page q).resides = id) ↔ id = d :=
      ⟨fun ⟨q, hq, hr⟩ => by rw [← hr, ← Option.some.inj hq, hres], fun hd => ⟨p, rfl, hd ▸ hres⟩⟩
    rw [if_congr hiff rfl rfl, Function.update_apply]
    split_ifs with hd
    · have hpos := List.length_pos_of_mem hrem.mem
      rw [List.length_erase_of_mem hrem.mem, hd]
      omega
    · rfl

/-- An access keeps a chain within its capacity if and only if it puts no page on it while it is full. -/
theorem atMost_access_iff (h : Kept t L V) {order : List ℤ}
    (hst : OrderedStep (t.withLive V) (.access a, order) s') (hle : ((L id).length : ℤ) ≤ capacity) :
    s'.AtMost id capacity ↔ ¬((t.withLive V).Full id capacity ∧
      Call.Refills (t.withLive V) id order (.access a)) := by
  obtain ⟨-, ho, o, hexec⟩ := hst
  obtain ⟨⟨s₁, o₁⟩, heq, h'⟩ := map_eq_ok hexec
  cases h'
  by_cases hres : ∃ r, t.Resident r ∧ (t.heap.page r).address = a
  · obtain ⟨p, hp, rfl⟩ := hres
    obtain ⟨t', rfl, h', -⟩ := h.access_hit hp heq
    refine iff_of_true (h'.atMost_iff.2 hle) fun hr => ?_
    exact h.rep.store.lookup_eq_neg_one_iff.1 hr.2.1 p hp rfl
  · push Not at hres
    obtain ⟨t₁, L₁, v, f, t', p, halloc, hal, hfault, rfl, h', -⟩ := h.access_fault
      (fun d hd => ho.mem_iff.1 hd) hres heq
    have hlookup : (t.withLive V).pageTable.lookup a = -1 := h.rep.store.lookup_eq_neg_one_iff.2 hres
    have halloc' : (t.withLive V).allocFrame order = .ok (t₁.withLive V, f, v) := by
      rw [allocFrame_withLive, halloc]
      rfl
    have hgives : (t.withLive V).GivesUp order id ↔ _ := givesUp_iff halloc'
    have hlen := h.length_frees hal id
    rw [h'.atMost_iff, h.full_iff, Call.Refills, hgives, Function.update_apply]
    change _ ↔ ¬(_ ∧ _ ∧ t.homeChain a = id ∧ ¬∃ q, v = some q ∧ (t.heap.page q).resides = id)
    by_cases hhome : t.homeChain a = id
    · rw [if_pos hhome.symm, hhome, List.length_cons]
      push_cast
      split_ifs at hlen with hv
      · exact iff_of_true (by omega) fun hr => hr.2.2.2 hv
      · refine ⟨fun hle' hr => ?_, fun hr => ?_⟩
        · have := hr.1
          omega
        · by_contra hlt
          exact hr ⟨by omega, hlookup, rfl, hv⟩
    · rw [if_neg (Ne.symm hhome)]
      refine iff_of_true ?_ fun hr => hhome hr.2.2.1
      split_ifs at hlen <;> omega

/-- A call that links a page to a full chain moves no page of the chain. -/
theorem not_spills (h : Kept t L V) (hst : FullStep (t.withLive V) call s') (h3 : 3 ≤ id)
    (hadds : call.Adds (t.withLive V) id) (hfull : (t.withLive V).Full id capacity) :
    ¬call.Spills (t.withLive V) id capacity s' := fun hspills => by
  obtain ⟨a, p, ha, hp, hpid⟩ := hadds
  obtain ⟨-, hsends, hcall⟩ := Call.of_target ha
  obtain ⟨t', L', V', rfl, h', -, hsent⟩ := h.step_of_ne_access hst hcall
  obtain ⟨l, hl, q, hq, hr, -⟩ := hspills ⟨a, p, ha, hp, hpid⟩ hfull
  obtain rfl : L id = l := Except.ok.inj ((h.rep.iterate id).symm.trans hl)
  have hqid := ((h.rep.chains.mem_iff id q).1 hq).1
  have hqp : q ≠ p := fun hqp => hpid (hqp ▸ hqid)
  have hns : ¬call.Sends (t.withLive V) q := fun hs =>
    hqp (h.eq_of_sends hp (h.rep.lt_fresh hq) ((hsends _ q).1 hs))
  rw [(hsent.of_not_sends q (h.rep.lt_fresh hq) hns).1] at hr
  exact absurd h3 ((hqid.symm.trans hr) ▸ by decide)

end Kept

/-- A chain created with a capacity stays within it in the runs that put no page on it while it is full; and
    from a state within it, a call keeps the chain within it, and spills, if and only if it does not. -/
theorem bounded_chain {n : ℕ} {s s₁ : HierarchicalMemoryManager} {policy : EvictionPolicy} {capacity : ℤ}
    (hs : (FullSystem n).Reachable s) (hcapacity : 1 ≤ capacity)
    (hst : FullStep s (.createBoundedMemoryChain policy capacity) s₁) :
    (∀ xs s', (OrderedSystem n).RunBy (fun s' x => ¬x.1.Overfills s' s.chainId capacity x.2) s₁ xs s' →
      s'.AtMost s.chainId capacity) ∧
    ∀ xs s' x s'', (OrderedSystem n).RunBy (fun _ _ => True) s₁ xs s' → OrderedStep s' x s'' →
      s'.AtMost s.chainId capacity →
      ((s''.AtMost s.chainId capacity ∧ x.1.Spills s' s.chainId capacity s'') ↔
        ¬x.1.Overfills s' s.chainId capacity x.2) := by
  have hs₁ : (FullSystem n).Reachable s₁ := .step hs trivial hst
  obtain ⟨⟨t, L, V, rfl, h, -⟩, -⟩ := reachable_kept hs
  have h3 : 3 ≤ (t.withLive V).chainId := h.rep.ids.three_le
  have hstep : ∀ {s' s'' : HierarchicalMemoryManager} {x : Call × List ℤ}, (FullSystem n).Reachable s' →
      OrderedStep s' x s'' → s'.AtMost (t.withLive V).chainId capacity →
      ((s''.AtMost (t.withLive V).chainId capacity ∧
        x.1.Spills s' (t.withLive V).chainId capacity s'') ↔
          ¬x.1.Overfills s' (t.withLive V).chainId capacity x.2) := fun {s' s'' x} hs' hst' hle => by
    obtain ⟨⟨t', L', V', rfl, h', -⟩, -⟩ := reachable_kept hs'
    rw [h'.atMost_iff] at hle
    obtain ⟨call, order⟩ := x
    by_cases hcall : ∃ a, call = .access a
    · -- An access links no page it is given, and the page fault decides.
      obtain ⟨a, rfl⟩ := hcall
      have hadds : ¬Call.Adds (t'.withLive V') (t.withLive V).chainId (.access a) := fun ⟨_, _, hnone, _⟩ =>
        nomatch hnone
      have hspills : Call.Spills (t'.withLive V') (t.withLive V).chainId capacity (.access a) s'' :=
        fun ha => absurd ha hadds
      rw [and_iff_left hspills, h'.atMost_access_iff hst' hle, Call.Overfills, or_iff_right hadds]
    · push Not at hcall
      have hrefills : ¬call.Refills (t'.withLive V') (t.withLive V).chainId order := by
        cases call with
        | access a => exact absurd rfl (hcall a)
        | _ => exact id
      rw [Call.Overfills, or_iff_left hrefills]
      refine ⟨fun ⟨_, hspills⟩ ⟨hfull, hadds⟩ => h'.not_spills hst'.full h3 hadds hfull hspills,
        fun hover => ⟨h'.atMost_of_ne_access hst'.full hcall h3 hle fun ⟨ha, hf⟩ => hover ⟨hf, ha⟩,
          fun hadds hfull => absurd ⟨hfull, hadds⟩ hover⟩⟩
  constructor
  · -- The chain starts empty, and no call overfills it.
    intro xs s' hrun
    have hinit : s₁.AtMost (t.withLive V).chainId capacity := by
      obtain ⟨order, o, -, hexec⟩ := hst.returns
      cases hexec
      refine ⟨[], ?_, by simp only [List.length_nil]; omega⟩
      rw [createBoundedMemoryChain, addChain, MemoryChain.bounded', MemoryChain.make, MemoryChain.iterate]
      simp only [Function.update_self, walk]
    exact (hrun.invariant (I := fun s => (FullSystem n).Reachable s ∧
      s.AtMost (t.withLive V).chainId capacity) (fun _ _ _ hs₂ hover hst₂ =>
        ⟨hs₂.1.step trivial (OrderedStep.full hst₂), ((hstep hs₂.1 hst₂ hs₂.2).2 hover).1⟩) ⟨hs₁, hinit⟩).2
  · intro xs s' x s'' hrun hst' hle
    exact hstep (hrun.invariant (I := (FullSystem n).Reachable)
      (fun _ _ _ hs₂ _ hst₂ => hs₂.step trivial (OrderedStep.full hst₂)) hs₁) hst' hle

/-- The page of a chain of capacity 1 is evicted, and loaded again. -/
theorem bounded_chain_refilled : ∃ s₁ xs s', FullStep (.make 2 {} fun _ => 0)
    (.createBoundedMemoryChain .lru 1) s₁ ∧ xs.map Prod.fst = [.access 1, .link 3 1, .access 2,
      .access 2, .access 4, .access 1] ∧
    (OrderedSystem 2).RunBy (fun s' x => ¬x.1.Overfills s' 3 1 x.2) s₁ xs s' ∧
    (s'.chains 3).size = 1 ∧ s'.AtMost 3 1 := by
  have hinit : (FullSystem 2).Reachable (.make 2 {} fun _ => 0) := .init ⟨_, _, rfl⟩
  have hst : FullStep (.make 2 {} fun _ => 0) (.createBoundedMemoryChain .lru 1)
      ((HierarchicalMemoryManager.make 2 {} fun _ => 0).createBoundedMemoryChain .lru 1) :=
    ⟨fun _ h => (nomatch h), [], none, .refl _, rfl⟩
  have hroom : ∀ {s : HierarchicalMemoryManager} {call order}, (s.chains 3).size = 0 →
      ¬Call.Overfills s 3 1 order call := fun h0 ⟨hfull, _⟩ => by
    rw [Full, h0] at hfull
    exact absurd hfull (by decide)
  have hhit : ∀ {s : HierarchicalMemoryManager} {a order}, s.pageTable.lookup a ≠ -1 →
      ¬Call.Overfills s 3 1 order (.access a) := fun h0 ⟨_, hor⟩ => by
    rcases hor with ⟨_, _, hnone, _⟩ | hr
    · cases hnone
    · exact h0 hr.1
  have haway : ∀ {s : HierarchicalMemoryManager} {a order}, s.homeChain a ≠ 3 →
      ¬Call.Overfills s 3 1 order (.access a) := fun h0 ⟨_, hor⟩ => by
    rcases hor with ⟨_, _, hnone, _⟩ | hr
    · cases hnone
    · exact h0 hr.2.1
  obtain ⟨s', hrun, hsize⟩ : ∃ s', (OrderedSystem 2).RunBy (fun s' x => ¬x.1.Overfills s' 3 1 x.2)
      ((HierarchicalMemoryManager.make 2 {} fun _ => 0).createBoundedMemoryChain .lru 1)
      [(.access 1, [3]), (.link 3 1, [3]), (.access 2, [3]), (.access 2, [3]), (.access 4, [3]),
        (.access 1, [3])] s' ∧ (s'.chains 3).size = 1 := by
    refine ⟨_, .cons (hroom (by decide)) ⟨fun _ h => (nomatch h), .refl _, _, rfl⟩
      (.cons (hroom (by decide)) ⟨fun _ h => ?_, .refl _, _, rfl⟩
      (.cons (haway (by decide)) ⟨fun _ h => (nomatch h), .refl _, _, rfl⟩
      (.cons (hhit (by decide)) ⟨fun _ h => (nomatch h), .refl _, _, rfl⟩
      (.cons (haway (by decide)) ⟨fun _ h => (nomatch h), .refl _, _, rfl⟩
      (.cons (hroom (by decide)) ⟨fun _ h => (nomatch h), .refl _, _, rfl⟩ .nil))))), by decide⟩
    cases h
    decide
  exact ⟨_, _, s', hst, rfl, hrun, hsize, (bounded_chain hinit le_rfl hst).1 _ s' hrun⟩

/-- A chain of capacity 1 holds two pages. -/
theorem chain_overfilled : ∃ (s s₁ s' : HierarchicalMemoryManager) (calls : List Call),
    (FullSystem 2).Reachable s ∧ FullStep s (.createBoundedMemoryChain .lru 1) s₁ ∧
      (FullSystem 2).RunBy (fun _ _ => True) s₁ calls s' ∧ ¬s'.AtMost s.chainId 1 := by
  obtain ⟨s, s₁, s', hs, hst, hrun, hq⟩ := exists_run (n := 2) (P := fun _ => True)
    (Q := fun s s' => decide (((s'.chains s.chainId).iterate s'.heap).toOption.map List.length = some 2))
    [.access 1, .access 2] (.createBoundedMemoryChain .lru 1) [.link 3 1, .link 3 2]
    (fun _ _ => trivial) (by decide)
  refine ⟨s, s₁, s', _, hs, hst, hrun, fun ⟨l, hl, hle⟩ => ?_⟩
  have hlen := of_decide_eq_true hq
  rw [hl] at hlen
  have : l.length = 2 := Option.some.inj hlen
  omega

end Mcpq.Hierarchical
