import Mcpq.Hierarchical.Places

/-!
# The local policies of chains

Phase two of an eviction takes the least recently used page of the chain, by `victim`, whatever the local
policy of the chain and its anchor are. It is the page that the policy names (`RespectsPolicy`) exactly
when the policy names the least recently used page (`LeastIsNamed`): `victim_respects_iff`.
-/

namespace Mcpq.Hierarchical

open HierarchicalMemoryManager

/-- The page `p` of the chain `c` is not its anchor, and the one that its local policy names among the
    other pages. -/
def RespectsPolicy (c : MemoryChain) (h : Heap) (pages : List PageRef) (p : PageRef) : Prop :=
  c.anchor ≠ some p ∧
    match c.policy with
    | .lru => ∀ q ∈ pages, c.anchor ≠ some q → (h.page p).timestamp ≤ (h.page q).timestamp
    | .mru => ∀ q ∈ pages, c.anchor ≠ some q → (h.page q).timestamp ≤ (h.page p).timestamp
    | .fifo => ∀ q ∈ pages, c.anchor ≠ some q → (h.page p).linkedAt ≤ (h.page q).linkedAt
    | .random => True

/-- The least recently used page of the chain `c` is not its anchor. If the policy is to evict the most
    recently used page, there is no page but the two; if it is to evict the page that was linked first,
    no page but the anchor was linked before it. -/
def LeastIsNamed (c : MemoryChain) (h : Heap) (pages : List PageRef) : Prop :=
  ∃ m ∈ pages, (∀ q ∈ pages, (h.page m).timestamp ≤ (h.page q).timestamp) ∧ c.anchor ≠ some m ∧
    match c.policy with
    | .lru => True
    | .mru => ∀ q ∈ pages, c.anchor ≠ some q → q = m
    | .fifo => ∀ q ∈ pages, c.anchor ≠ some q → (h.page m).linkedAt ≤ (h.page q).linkedAt
    | .random => True

namespace HierarchicalMemoryManager

variable {s s' : HierarchicalMemoryManager} {L : ℤ → List PageRef} {id : ℤ} {p m : PageRef}
  {order : List ℤ}

/-- A page evicted from a user chain is its least recently used one. -/
theorem Rep.evict_least (hs : s.Rep L) (ho : ∀ d ∈ order, d ∈ s.usrChains)
    (heq : s.evict order = .ok (s', p)) (hp : p ∈ L id) (hid : id ∈ s.usrChains) :
    ∀ q ∈ L id, (s.heap.page p).timestamp ≤ (s.heap.page q).timestamp := by
  have h3 := (hs.ids.range id hid).1
  -- The page is the one that the first phase chose.
  have hpage : ∀ {s₁ : HierarchicalMemoryManager} {m : ℕ} {d : ℤ} {q : PageRef},
      s.selectVictim order = .ok (s₁, ⟨m, some q, some d⟩) → Refreshes s s₁ L → q ∈ L d →
      q = p ∧ d = id := fun hsel hr hq => by
    obtain ⟨s₂, heq', -⟩ := hs.evict_of_selectVictim hr hq hsel
    rw [heq'] at heq
    cases heq
    exact ⟨rfl, hs.eq_of_mem hq hp⟩
  obtain ⟨s₁, c, hsel, hr, ⟨-, -, hb⟩ | ⟨m, d, q, rfl, hch⟩⟩ := hs.selectVictim_best ho
  · cases hb with
    | none =>
      rw [HierarchicalMemoryManager.evict, hsel] at heq
      cases heq
    | default hq =>
      obtain ⟨rfl, rfl⟩ := hpage hsel hr hq
      exact absurd h3 (by decide)
    | user _ _ hq hle =>
      obtain ⟨rfl, rfl⟩ := hpage hsel hr hq
      exact hle
  · obtain ⟨rfl, rfl⟩ := hpage hsel hr hch.mem
    cases hch with
    | hated => exact absurd h3 (by decide)
    | spillover => exact absurd h3 (by decide)
    | default => exact absurd h3 (by decide)
    | user _ _ _ _ _ hle => exact hle

/-- The least recently used page is the one that the policy names if the policy names it. -/
theorem Rep.respectsPolicy_iff (hs : s.Rep L) (hp : p ∈ L id)
    (hle : ∀ q ∈ L id, (s.heap.page p).timestamp ≤ (s.heap.page q).timestamp) :
    RespectsPolicy (s.chains id) s.heap (L id) p ↔ LeastIsNamed (s.chains id) s.heap (L id) := by
  -- Timestamps are distinct.
  have hinj : ∀ m ∈ L id, (s.heap.page m).timestamp ≤ (s.heap.page p).timestamp → m = p :=
    fun m hm hmp => hs.store.stamp_inj m (hs.lt_fresh hm) p (hs.lt_fresh hp)
      (le_antisymm hmp (hle m hm))
  constructor
  · rintro ⟨hanchor, hpolicy⟩
    refine ⟨p, hp, hle, hanchor, ?_⟩
    cases hc : (s.chains id).policy with
    | lru => trivial
    | mru =>
      rw [hc] at hpolicy
      exact fun q hq hq' => hinj q hq (hpolicy q hq hq')
    | random => trivial
    | fifo =>
      rw [hc] at hpolicy
      exact hpolicy
  · rintro ⟨m, hm, hmle, hanchor, hpolicy⟩
    obtain rfl := hinj m hm (hmle p hp)
    refine ⟨hanchor, ?_⟩
    cases hc : (s.chains id).policy with
    | lru => exact fun q hq _ => hle q hq
    | mru =>
      rw [hc] at hpolicy
      intro q hq hq'
      rw [hpolicy q hq hq']
    | random => trivial
    | fifo =>
      rw [hc] at hpolicy
      exact hpolicy

end HierarchicalMemoryManager

/-- A page evicted from a user chain is the one that the local policy of the chain names if and only if
    the policy names the least recently used page. -/
theorem victim_respects_iff {n : ℕ} {s s' : HierarchicalMemoryManager} {order : List ℤ} {c : ℤ}
    {pages : List PageRef} {p : PageRef} (hs : (FullSystem n).Reachable s)
    (ho : order.Perm s.usrChains) (heq : s.evict order = .ok (s', p)) (hc : c ∈ s.usrChains)
    (hpages : (s.chains c).iterate s.heap = .ok pages) (hp : p ∈ pages) :
    RespectsPolicy (s.chains c) s.heap pages p ↔ LeastIsNamed (s.chains c) s.heap pages := by
  obtain ⟨⟨t, L, V, rfl, h, -⟩, -⟩ := reachable_kept hs
  rw [evict_withLive] at heq
  obtain ⟨⟨t', q⟩, hevict, hq⟩ := map_eq_ok heq
  obtain ⟨-, rfl⟩ : _ ∧ q = p := Prod.mk.inj hq
  obtain rfl : L c = pages := Except.ok.inj ((h.rep.iterate c).symm.trans hpages)
  exact h.rep.respectsPolicy_iff hp (h.rep.evict_least
    (fun d hd => h.subset d (ho.mem_iff.1 hd)) hevict hp (h.subset c hc))

/-- The page evicted next, and the pages of the chain 3, which holds it and another one. -/
def phaseTwo (s : HierarchicalMemoryManager) : Option (PageRef × List PageRef) :=
  match s.evict s.usrChains, (s.chains 3).iterate s.heap with
  | .ok (_, p), .ok pages => if 3 ∈ s.usrChains ∧ p ∈ pages ∧ pages.length = 2 then some (p, pages) else none
  | _, _ => none

theorem of_phaseTwo {s : HierarchicalMemoryManager} {p : PageRef} {pages : List PageRef}
    (h : phaseTwo s = some (p, pages)) : ∃ s', s.evict s.usrChains = .ok (s', p) ∧ 3 ∈ s.usrChains ∧
      (s.chains 3).iterate s.heap = .ok pages ∧ p ∈ pages ∧ pages.length = 2 := by
  rw [phaseTwo] at h
  split at h
  · rename_i s' q l hevict hiterate
    split_ifs at h with hc
    cases h
    exact ⟨s', hevict, hc.1, hiterate, hc.2⟩
  · cases h

/-- A page is evicted from a chain of two pages with the policy LRU. -/
theorem victim_respects_iff_lru : ∃ s s' p pages, (FullSystem 2).Reachable s ∧
    s.evict s.usrChains = .ok (s', p) ∧ (s.chains 3).policy = .lru ∧ pages.length = 2 ∧
    (RespectsPolicy (s.chains 3) s.heap pages p ↔ LeastIsNamed (s.chains 3) s.heap pages) := by
  obtain ⟨s, hs, hq⟩ := exists_fullReachable (n := 2)
    (Q := fun s => (s.chains 3).policy = .lru ∧ (phaseTwo s).isSome)
    [.createMemoryChain .lru, .access 1, .access 2, .link 3 1, .link 3 2] (by decide)
  obtain ⟨hpolicy, hsome⟩ := of_decide_eq_true hq
  obtain ⟨⟨p, pages⟩, hp⟩ := Option.isSome_iff_exists.1 hsome
  obtain ⟨s', heq, hc, hpages, hmem, hlen⟩ := of_phaseTwo hp
  exact ⟨s, s', p, pages, hs, heq, hpolicy, hlen,
    victim_respects_iff hs (.refl _) heq hc hpages hmem⟩

/-- The anchor of a chain of two pages is evicted. -/
theorem anchor_evicted : ∃ s s' p pages, (FullSystem 2).Reachable s ∧
    s.evict s.usrChains = .ok (s', p) ∧ 3 ∈ s.usrChains ∧
    (s.chains 3).iterate s.heap = .ok pages ∧ p ∈ pages ∧ 2 ≤ pages.length ∧
    ¬RespectsPolicy (s.chains 3) s.heap pages p := by
  obtain ⟨s, hs, hq⟩ := exists_fullReachable (n := 2)
    (Q := fun s => (phaseTwo s).any fun r => (s.chains 3).anchor = some r.1)
    [.createMemoryChain .lru, .access 1, .access 2, .anchor 3 1, .link 3 2] (by decide)
  obtain ⟨⟨p, pages⟩, hp, hanchor⟩ := (Option.any_eq_true ..).1 hq
  obtain ⟨s', heq, hc, hpages, hmem, hlen⟩ := of_phaseTwo hp
  exact ⟨s, s', p, pages, hs, heq, hc, hpages, hmem, hlen.ge,
    fun h => h.1 (of_decide_eq_true hanchor)⟩

end Mcpq.Hierarchical
