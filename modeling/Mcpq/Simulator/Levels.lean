import Mcpq.Simulator.MultiLevel
import Mcpq.Simulator.ChainStructure

/-!
# The frames of the multi-level memory manager

The runs of a multi-level memory manager (`LevelSystem`). It evicts pages of its chains only, so that the
frame of a page on no chain is lost. None is (`NoFrameLost`) as long as `hate` is called for a page that
is alone on its chain, or on the default one; otherwise the other pages of the chain are on none
afterwards (`no_frame_lost`).
-/

namespace Mcpq.Simulator

open ChainedLeastRecentlyUsed

/-- A call to the manager: an access has the order in which the map of the chains is iterated over, and
    the time. -/
inductive LevelCall
  | access (order : List ℤ) (millis : ℕ) (address : ℤ)
  | chain
  | love (page l : ℤ)
  | lovePin (page l : ℤ) (pin : Bool)
  | hate (page l : ℤ)
  deriving DecidableEq, Repr

namespace LevelCall

/-- The pages a call is given. -/
def pages : LevelCall → List ℤ
  | love page _ => [page]
  | lovePin page _ _ => [page]
  | hate page _ => [page]
  | _ => []

/-- The chain a page is linked to. -/
def link? : LevelCall → Option ℤ
  | love _ l => some l
  | lovePin _ l _ => some l
  | _ => none

/-- The order a call iterates over the chains in. -/
def order? : LevelCall → Option (List ℤ)
  | access order _ _ => some order
  | _ => none

/-- Execute a call. -/
def exec (m : MultiLevelMemoryManager) : LevelCall → Java MultiLevelMemoryManager
  | access order millis address => (m.access order millis address).map (·.1)
  | chain => .ok m.chain.2
  | love page l => m.love page l
  | lovePin page l pin => m.lovePin page l pin
  | hate page l => m.hate page l

/-- Execute a call with pages in memory and a chain of the manager. -/
def checked (m : MultiLevelMemoryManager) (call : LevelCall) : Java MultiLevelMemoryManager :=
  if (∀ p ∈ call.pages, (m.base.getFromMemory p).isSome = true) ∧
      (∀ l ∈ call.link?, l ∈ m.chains) ∧ ∀ order ∈ call.order?, order.Perm m.chains
  then call.exec m else .error .illegalArgument

end LevelCall

/-- A call that returns normally, with pages in memory and a chain of the manager. -/
structure LevelStep (m : MultiLevelMemoryManager) (call : LevelCall) (m' : MultiLevelMemoryManager) :
    Prop where
  resident : ∀ p ∈ call.pages, (m.base.getFromMemory p).isSome = true
  exists_chain : ∀ l ∈ call.link?, l ∈ m.chains
  order_perm : ∀ order ∈ call.order?, order.Perm m.chains
  returns : call.exec m = .ok m'

theorem LevelStep.of_checked {m m' : MultiLevelMemoryManager} {call : LevelCall}
    (h : call.checked m = .ok m') : LevelStep m call m' := by
  rw [LevelCall.checked] at h
  split_ifs at h with hc
  exact ⟨hc.1, hc.2.1, hc.2.2, h⟩

/-- The runs of a multi-level memory manager of capacity `n`. -/
def LevelSystem (n : ℕ) : Transition MultiLevelMemoryManager LevelCall where
  init m := ∃ clock, m = .make n clock
  step := LevelStep

/-- The pages met from the head of a chain on. -/
def MultiLevelMemoryManager.pages (m : MultiLevelMemoryManager) (id : ℤ) : Java (List PageRef) :=
  walk m.base.heap.next m.base.heap.disk.length (m.base.policy.chains id).head

/-- The pages in memory are on the chains of the manager that they name, and on no other, and the sizes
    of the chains sum to their number. -/
structure NoFrameLost (m : MultiLevelMemoryManager) : Prop where
  link_mem : ∀ p, (m.base.getFromMemory p).isSome = true → m.base.heap.link p ∈ m.chains
  mem_pages : ∀ p, (m.base.getFromMemory p).isSome = true → ∀ id ∈ m.chains,
    ((∃ pages, m.pages id = .ok pages ∧ p ∈ pages) ↔ id = m.base.heap.link p)
  sum_size : (m.chains.map fun id => (m.base.policy.chains id).size).sum =
    (m.base.memory.countP (·.isSome) : ℤ)

/-- `hate` is called for a page of the default chain, or for one that is alone on its chain. -/
def AloneOrDefault (m : MultiLevelMemoryManager) : LevelCall → Prop
  | .hate page _ => m.base.heap.link page = m.defaultChain ∨
    ∀ q, (m.base.getFromMemory q).isSome = true → m.base.heap.link q = m.base.heap.link page → q = page
  | _ => True

/-- The chains of the manager hold the pages in memory. -/
structure Leveled (n : ℕ) (m : MultiLevelMemoryManager) (slots : List PageRef)
    (L : ℤ → List PageRef) : Prop where
  chained : Chained n m.base slots L
  on_chain : ∀ p ∈ slots, m.base.heap.link p ≠ -1
  table_eq : m.chains = m.base.policy.linkTable
  default_mem : m.defaultChain ∈ m.chains

namespace Chained

variable {n : ℕ} {m m' : ChainedManager} {slots : List PageRef} {L : ℤ → List PageRef} {p : PageRef}
  {id : ℤ} {c : Chain}

/-- A page is evicted from a chain. -/
theorem evict {heap : Heap} (h : Chained n m slots L) (hid : id ∈ m.policy.linkTable)
    (heq : (m.policy.chains id).evict m.heap = .ok (p, heap, c)) :
    ∃ L', Chained n { m with heap, policy := m.policy.setChain id c } slots L' ∧ p ∈ slots ∧
      ∀ q, heap.link q = Function.update m.heap.link p (-1) q := by
  have hs := h.structured
  obtain ⟨hp, h', c', heq', hs', hlink, hdisk, hpage, hfixed, -⟩ := hs.evict hid
    (Chain.victim_of_evict (hs.holds id hid) hs.length_le heq)
  obtain ⟨-, hrest⟩ := Prod.mk.inj (Except.ok.inj (heq.symm.trans heq'))
  obtain ⟨rfl, rfl⟩ := Prod.mk.inj hrest
  have hps : p ∈ slots := h.resident p fun hp' =>
    (hs.mem_iff.1 hp).2 ((hs.link_of_mem hp).symm.trans hp')
  have hsame := SameTable.setChain (s := m.policy) (congrArg (·.1) hfixed) (congrArg (·.2.1) hfixed)
  refine ⟨_, ⟨h.frames.congr rfl rfl hdisk hpage, hs', fun q hq => ?_, fun d hd => ?_⟩, hps, hlink⟩
  · exact h.update_resident hps (-1) q (hlink q ▸ hq)
  · exact (hsame.limits_eq d).1.trans (h.capacity_eq d hd)

/-- The timestamp of a chain is computed. -/
theorem getTimestamp {sample t : ℕ} (h : Chained n m slots L) (hid : id ∈ m.policy.linkTable)
    (heq : (m.policy.chains id).getTimestamp m.heap sample = .ok (t, c)) :
    Chained n { m with policy := m.policy.setChain id c } slots L := by
  obtain ⟨hs, t', k, rfl⟩ := h.structured.getTimestamp hid heq
  refine ⟨h.frames.congr rfl rfl rfl fun _ _ => rfl, hs, h.resident, fun d hd => ?_⟩
  have hsame : SameTable m.policy
      (m.policy.setChain id { m.policy.chains id with timestamp := t', sample := k }) :=
    .setChain rfl rfl
  exact (hsame.limits_eq d).1.trans (h.capacity_eq d hd)

end Chained

namespace Leveled

open MultiLevelMemoryManager

variable {n : ℕ} {m m' : MultiLevelMemoryManager} {slots : List PageRef} {L : ℤ → List PageRef}
  {p a : PageRef} {id : ℤ}

theorem make (clock : LogicalClock) : Leveled n (.make n clock) [] fun _ => [] where
  chained := (Chained.make clock).addChain false
  on_chain _ hp := absurd hp List.not_mem_nil
  table_eq := rfl
  default_mem := List.mem_cons_self

/-- The manager with the timestamps of some chains computed. -/
def Samples (m m' : MultiLevelMemoryManager) : Prop :=
  ∃ policy : ChainedLeastRecentlyUsed, policy.linkTable = m.base.policy.linkTable ∧
    m' = m.setPolicy m.base.heap policy

theorem chainTimestamp_ok {t : ℕ} (h : Chained n m.base slots L) (hid : id ∈ m.base.policy.linkTable)
    (heq : m.chainTimestamp id = .ok (t, m')) : Samples m m' ∧ Chained n m'.base slots L := by
  rw [chainTimestamp] at heq
  obtain ⟨⟨t', c⟩, hget, heq⟩ := bind_eq_ok heq
  obtain ⟨-, rfl⟩ := Prod.mk.inj (Except.ok.inj heq)
  exact ⟨⟨m.base.policy.setChain id c, rfl, rfl⟩, h.getTimestamp hid hget⟩

theorem Samples.trans {m₁ m₂ : MultiLevelMemoryManager} (h₁ : Samples m m₁) (h₂ : Samples m₁ m₂) :
    Samples m m₂ := by
  obtain ⟨policy₁, ht₁, rfl⟩ := h₁
  obtain ⟨policy₂, ht₂, rfl⟩ := h₂
  exact ⟨policy₂, ht₂.trans ht₁, rfl⟩

/-- The search for a chain writes timestamps only, and finds a chain of the table. -/
theorem evictPage_ok {order : List ℤ} {millis : ℕ} {chain : Option ℤ} (h : Leveled n m slots L)
    (horder : order.Perm m.chains) (heq : m.evictPage order millis = .ok (m', chain)) :
    Samples { m with sample := m.sample + 1 } m' ∧ Chained n m'.base slots L ∧
      ∀ id ∈ chain, id ∈ m'.base.policy.linkTable := by
  rw [evictPage] at heq
  obtain ⟨⟨m₁, t, c⟩, hfold, heq⟩ := bind_eq_ok heq
  obtain ⟨rfl, rfl⟩ := Prod.mk.inj (Except.ok.inj heq)
  -- The timestamps that are written are those of samples, and the chain found so far is one of the table.
  refine foldlM_invariant (I := fun b : MultiLevelMemoryManager × ℕ × Option ℤ =>
    Samples { m with sample := m.sample + 1 } b.1 ∧ Chained n b.1.base slots L ∧
      ∀ id ∈ b.2.2, id ∈ b.1.base.policy.linkTable) (fun id hid b b' hb hstep => ?_)
    ⟨⟨_, rfl, rfl⟩, h.chained, fun _ hid => absurd hid (Option.not_mem_none _)⟩ hfold
  obtain ⟨m₂, t₂, c₂⟩ := b
  obtain ⟨hsamples, hchained, hc⟩ := hb
  have htable : ∀ {m₃}, Samples { m with sample := m.sample + 1 } m₃ →
      m₃.base.policy.linkTable = m.base.policy.linkTable := by
    rintro _ ⟨policy, ht, rfl⟩
    exact ht
  have hid' : id ∈ m.base.policy.linkTable := h.table_eq ▸ horder.mem_iff.1 hid
  rw [considerChain] at hstep
  obtain ⟨⟨t₃, m₃⟩, htime, hstep⟩ := bind_eq_ok hstep
  obtain ⟨hs₃, hch₃⟩ := chainTimestamp_ok hchained ((htable hsamples).symm ▸ hid') htime
  have hs₃ := hsamples.trans hs₃
  dsimp only at hstep
  split_ifs at hstep
  · -- The chain is older than the one found so far, and is the one found then.
    obtain ⟨⟨t₄, m₄⟩, htime₄, hstep⟩ := bind_eq_ok hstep
    obtain ⟨hs₄, hch₄⟩ := chainTimestamp_ok hch₃ ((htable hs₃).symm ▸ hid') htime₄
    obtain rfl := Except.ok.inj hstep
    refine ⟨hs₃.trans hs₄, hch₄, fun d hd => ?_⟩
    obtain rfl := Option.mem_some_iff.1 hd
    exact (htable (hs₃.trans hs₄)).symm ▸ hid'
  · obtain rfl := Except.ok.inj hstep
    refine ⟨hs₃, hch₃, fun d hd => ?_⟩
    rw [htable hs₃, ← htable hsamples]
    exact hc d hd

/-- A page in memory is linked to a chain of the manager, when all the other pages are on chains. -/
theorem linked {heap : Heap} {policy : ChainedLeastRecentlyUsed} {L' : ℤ → List PageRef}
    (h : Chained n m.base slots L) (ht : m.chains = m.base.policy.linkTable)
    (hd : m.defaultChain ∈ m.chains) (hon : ∀ q ∈ slots, q ≠ p → m.base.heap.link q ≠ -1)
    (hid : id ∈ m.chains) (h' : Chained n { m.base with heap, policy } slots L')
    (hr : Relinks m.base.policy m.base.heap policy heap (Function.update m.base.heap.link p id)) :
    Leveled n (m.setPolicy heap policy) slots L' := by
  refine ⟨h', fun q hq => ?_, ht.trans hr.table_eq.symm, hd⟩
  change heap.link q ≠ -1
  rw [hr.link_eq, Function.update_apply]
  split_ifs with hqp
  · exact h.structured.ne_of_mem_table (ht ▸ hid)
  · exact hon q hq hqp

theorem love {heap : Heap} {policy : ChainedLeastRecentlyUsed} (h : Chained n m.base slots L)
    (hn : n ≤ 2147483647) (ht : m.chains = m.base.policy.linkTable)
    (hd : m.defaultChain ∈ m.chains) (hon : ∀ q ∈ slots, q ≠ p → m.base.heap.link q ≠ -1)
    (hp : p ∈ slots) (hid : id ∈ m.chains)
    (heq : m.base.policy.love m.base.heap (some p) id = .ok (heap, policy)) :
    ∃ L', Leveled n (m.setPolicy heap policy) slots L' := by
  obtain ⟨heap', policy', L', heq', h', hr⟩ := h.love hn (ht ▸ hid) hp
  obtain ⟨rfl, rfl⟩ := Prod.mk.inj (Except.ok.inj (heq.symm.trans heq'))
  exact ⟨L', linked h ht hd hon hid h' hr⟩

theorem lovePin {heap : Heap} {policy : ChainedLeastRecentlyUsed} {pin : Bool}
    (h : Chained n m.base slots L) (hn : n ≤ 2147483647) (ht : m.chains = m.base.policy.linkTable)
    (hd : m.defaultChain ∈ m.chains) (hon : ∀ q ∈ slots, q ≠ p → m.base.heap.link q ≠ -1)
    (hp : p ∈ slots) (hid : id ∈ m.chains)
    (heq : m.base.policy.lovePin m.base.heap (some p) id pin = .ok (heap, policy)) :
    ∃ L', Leveled n (m.setPolicy heap policy) slots L' := by
  obtain ⟨heap', policy', L', heq', h', hr⟩ := h.lovePin hn (ht ▸ hid) hp pin
  obtain ⟨rfl, rfl⟩ := Prod.mk.inj (Except.ok.inj (heq.symm.trans heq'))
  exact ⟨L', linked h ht hd hon hid h' hr⟩

/-- A position for a page: the page evicted is on no chain. -/
theorem freePosition_ok {order : List ℤ} {millis : ℕ} {position : ℤ} {evicted : Option PageRef}
    (h : Leveled n m slots L) (horder : order.Perm m.chains)
    (heq : m.freePosition order millis = .ok (m', position, evicted)) (ha : a ∉ slots) :
    ∃ base slots' L', m'.base.loadTo position a = .ok base ∧ Chained n base slots' L' ∧ a ∈ slots' ∧
      (∀ q ∈ slots', q ≠ a → base.heap.link q ≠ -1) ∧
      m'.chains = m.chains ∧ m'.defaultChain = m.defaultChain ∧
      base.policy.linkTable = m.base.policy.linkTable := by
  rw [freePosition] at heq
  split_ifs at heq with hfull
  · -- Memory is full: a page of the chain that is found leaves it, and memory.
    obtain ⟨⟨m₁, chain⟩, hevict, htail⟩ := bind_eq_ok heq
    obtain ⟨id, hid, htail⟩ := bind_eq_ok htail
    obtain ⟨⟨p, heap, c⟩, hpage, htail⟩ := bind_eq_ok htail
    obtain ⟨rfl, hrest⟩ := Prod.mk.inj (Except.ok.inj htail)
    obtain ⟨rfl, rfl⟩ := Prod.mk.inj hrest
    obtain ⟨⟨policy, htable, rfl⟩, h₁, hmem⟩ := h.evictPage_ok horder hevict
    obtain rfl : chain = some id := by
      cases chain with
      | none => cases hid
      | some d => exact congrArg some (Except.ok.inj hid)
    obtain ⟨L', h₂, hps, hlink⟩ := h₁.evict (hmem id rfl) hpage
    obtain ⟨base, slots', hload, hpolicy, hr, hf, hmem'⟩ :=
      h₂.frames.replace (h.chained.frames.isFull_iff.1 hfull) hps ha
    have hlink₂ : ∀ q, base.heap.link q = Function.update m.base.heap.link p (-1) q := fun q =>
      (congrArg (·.2.1) (hr.hints q)).trans (hlink q)
    refine ⟨base, slots', L', hload, h₂.referenced hf hr hpolicy fun q hq hq' => (hmem' q).2
      (.inr ⟨hq, ?_⟩), (hmem' a).2 (.inl rfl), fun q hq hqa => ?_, rfl, rfl, ?_⟩
    · rintro rfl
      exact hq' ((hlink q).trans (Function.update_self ..))
    · obtain ⟨hqs, hqp⟩ := ((hmem' q).1 hq).resolve_left hqa
      rw [hlink₂, Function.update_of_ne hqp]
      exact h.on_chain q hqs
    · rw [hpolicy]
      exact htable
  · -- There is a free slot.
    obtain ⟨rfl, hrest⟩ := Prod.mk.inj (Except.ok.inj heq)
    obtain ⟨rfl, -⟩ := Prod.mk.inj hrest
    have hf := h.chained.frames
    have hlt : slots.length < n := lt_of_le_of_ne hf.length_le
      fun hlen => hfull (hf.isFull_iff.2 hlen)
    obtain ⟨base, hload, hpolicy, hr, hf'⟩ := hf.append ha hlt
    refine ⟨base, slots ++ [a], L, hload, h.chained.referenced hf' hr hpolicy fun q hq _ =>
      List.mem_append_left _ hq, List.mem_append_right _ (List.mem_singleton_self a),
      fun q hq hqa => ?_, rfl, rfl, ?_⟩
    · have hqs : q ∈ slots := (List.mem_append.1 hq).resolve_right fun hq' =>
        hqa (List.mem_singleton.1 hq')
      exact (congrArg (·.2.1) (hr.hints q)).trans_ne (h.on_chain q hqs)
    · rw [hpolicy]

theorem access {order : List ℤ} {millis : ℕ} {o : Outcome ℤ} (h : Leveled n m slots L)
    (hn : n ≤ 2147483647) (horder : order.Perm m.chains)
    (heq : m.access order millis a = .ok (m', o)) : ∃ slots' L', Leveled n m' slots' L' := by
  have hf := h.chained.frames
  by_cases ha : a ∈ slots
  · rw [MultiLevelMemoryManager.access, hf.getFromMemory_of_mem ha] at heq
    obtain ⟨rfl, -⟩ := Prod.mk.inj (Except.ok.inj heq)
    have hr := references_updateRefStats (hf.disk a ha)
    refine ⟨slots, L, h.chained.referenced (hf.hit ha) hr rfl fun _ hq _ => hq, fun q hq => ?_,
      h.table_eq, h.default_mem⟩
    exact (congrArg (·.2.1) (hr.hints q)).trans_ne (h.on_chain q hq)
  · rw [MultiLevelMemoryManager.access, hf.getFromMemory_of_not_mem ha] at heq
    obtain ⟨⟨m₁, position, evicted⟩, hfree, htail⟩ := bind_eq_ok heq
    obtain ⟨base', hload', htail⟩ := bind_eq_ok htail
    obtain ⟨⟨heap, policy⟩, hlove, htail⟩ := bind_eq_ok htail
    obtain ⟨rfl, -⟩ := Prod.mk.inj (Except.ok.inj htail)
    obtain ⟨base, slots', L', hload, h', has, hon, hchains, hdefault, htable⟩ :=
      h.freePosition_ok horder hfree ha
    obtain rfl := Except.ok.inj (hload'.symm.trans hload)
    have ht : m₁.chains = base'.policy.linkTable := hchains.trans (h.table_eq.trans htable.symm)
    have hd : m₁.defaultChain ∈ m₁.chains := hdefault ▸ hchains ▸ h.default_mem
    obtain ⟨L'', h''⟩ := love (m := { m₁ with base := base' }) h' hn ht hd hon has hd hlove
    exact ⟨slots', L'', h''⟩

/-- A chain is created. -/
theorem chain (h : Leveled n m slots L) : Leveled n m.chain.2 slots L where
  chained := h.chained.addChain false
  on_chain := h.on_chain
  table_eq := congrArg (m.base.policy.linkId :: ·) h.table_eq
  default_mem := List.mem_cons_of_mem _ h.default_mem

/-- A page leaves its chain. -/
theorem leave_ok {heap : Heap} {policy : ChainedLeastRecentlyUsed} (h : Leveled n m slots L)
    (hp : p ∈ slots) (heq : m.leave p = .ok (heap, policy)) :
    ∃ L', Chained n { m.base with heap, policy } slots L' ∧
      policy.linkTable = m.base.policy.linkTable ∧ ∀ q ∈ slots, q ≠ p → heap.link q ≠ -1 := by
  have hlink := h.on_chain p hp
  obtain ⟨heap', policy', L', heq', h', hr⟩ :=
    h.chained.hateLink (h.chained.structured.link_mem_table hlink) hp (.inl rfl)
  rw [MultiLevelMemoryManager.leave] at heq
  obtain ⟨rfl, rfl⟩ := Prod.mk.inj (Except.ok.inj (heq.symm.trans ((if_pos hlink).trans heq')))
  refine ⟨L', h', hr.table_eq, fun q hq hqp => ?_⟩
  rw [hr.link_eq, Function.update_of_ne hqp]
  exact h.on_chain q hq

variable {call : LevelCall}

/-- A call that hates no page on a chain with others keeps all the pages on chains. -/
theorem step (h : Leveled n m slots L) (hn : n ≤ 2147483647) (halone : AloneOrDefault m call)
    (hst : LevelStep m call m') : ∃ slots' L', Leveled n m' slots' L' := by
  obtain ⟨hmem, hlink, horder, heq⟩ := hst
  have hpage : ∀ p, p ∈ call.pages → p ∈ slots ∧ m.base.getFromMemory p = some p := fun p hp =>
    have hp := h.chained.frames.getFromMemory_isSome.1 (hmem p hp)
    ⟨hp, h.chained.frames.getFromMemory_of_mem hp⟩
  cases call with
  | access order millis address =>
    obtain ⟨⟨m₁, o⟩, haccess, rfl⟩ := map_eq_ok heq
    exact h.access hn (horder order rfl) haccess
  | chain =>
    obtain rfl := Except.ok.inj heq
    exact ⟨slots, L, h.chain⟩
  | love page l =>
    -- The page leaves its chain, and joins another: the others are where they were.
    obtain ⟨hp, hget⟩ := hpage page List.mem_cons_self
    simp only [LevelCall.exec, MultiLevelMemoryManager.love, hget, deref_some, ok_bind] at heq
    obtain ⟨⟨heap, policy⟩, hleave, htail⟩ := bind_eq_ok heq
    obtain ⟨⟨heap', policy'⟩, hlove, htail⟩ := bind_eq_ok htail
    obtain rfl := Except.ok.inj htail
    obtain ⟨L₁, h₁, htable, hon⟩ := h.leave_ok hp hleave
    obtain ⟨L', h'⟩ := love (m := m.setPolicy heap policy) h₁ hn (h.table_eq.trans htable.symm)
      h.default_mem hon hp (hlink l rfl) hlove
    exact ⟨slots, L', h'⟩
  | lovePin page l pin =>
    obtain ⟨hp, hget⟩ := hpage page List.mem_cons_self
    simp only [LevelCall.exec, MultiLevelMemoryManager.lovePin, hget, deref_some, ok_bind] at heq
    obtain ⟨⟨heap, policy⟩, hleave, htail⟩ := bind_eq_ok heq
    obtain ⟨⟨heap', policy'⟩, hlove, htail⟩ := bind_eq_ok htail
    obtain rfl := Except.ok.inj htail
    obtain ⟨L₁, h₁, htable, hon⟩ := h.leave_ok hp hleave
    obtain ⟨L', h'⟩ := lovePin (m := m.setPolicy heap policy) h₁ hn (h.table_eq.trans htable.symm)
      h.default_mem hon hp (hlink l rfl) hlove
    exact ⟨slots, L', h'⟩
  | hate page l =>
    obtain ⟨hp, hget⟩ := hpage page List.mem_cons_self
    simp only [LevelCall.exec, MultiLevelMemoryManager.hate, hget] at heq
    -- A page that is not on the default chain is sent there.
    split_ifs at heq with hdefault
    · obtain ⟨⟨heap, policy⟩, hhate, htail⟩ := bind_eq_ok heq
      obtain ⟨⟨heap', policy'⟩, hlove, htail⟩ := bind_eq_ok htail
      obtain rfl := Except.ok.inj htail
      obtain ⟨heap₁, policy₁, L₁, hhate', h₁, hr⟩ := h.chained.hate page
      obtain ⟨rfl, rfl⟩ := Prod.mk.inj (Except.ok.inj (hhate.symm.trans hhate'))
      have halone := halone.resolve_left hdefault
      -- The chain that is hated holds the page alone, so that the others stay on theirs.
      have hon : ∀ q ∈ slots, q ≠ page → heap.link q ≠ -1 := fun q hq hqp => by
        rw [hr.link_eq, if_neg fun hlink => hqp
          (halone q (h.chained.frames.getFromMemory_isSome.2 hq) hlink)]
        exact h.on_chain q hq
      obtain ⟨L', h'⟩ := love (m := m.setPolicy heap policy) h₁ hn (h.table_eq.trans hr.table_eq.symm)
        h.default_mem hon hp h.default_mem hlove
      exact ⟨slots, L', h'⟩
    · obtain rfl := Except.ok.inj heq
      exact ⟨slots, L, h⟩

theorem of_reachable (hn : n ≤ 2147483647) (hm : (LevelSystem n).ReachableBy AloneOrDefault m) :
    ∃ slots L, Leveled n m slots L := by
  refine hm.invariant (I := fun m => ∃ slots L, Leveled n m slots L) (fun m hinit => ?_)
    fun m call m' h halone hst => ?_
  · obtain ⟨clock, rfl⟩ := hinit
    exact ⟨[], fun _ => [], make clock⟩
  · obtain ⟨slots, L, h⟩ := h
    exact h.step hn halone hst

/-! ## No frame is lost -/

theorem pages_eq (h : Leveled n m slots L) (hid : id ∈ m.chains) : m.pages id = .ok (L id) :=
  (h.chained.structured.holds id (h.table_eq ▸ hid)).list.walk_eq h.chained.structured.length_le

/-- The pages of the chains are the pages in memory. -/
theorem flatMap_perm (h : Leveled n m slots L) : (m.chains.flatMap L).Perm slots := by
  have hs := h.chained.structured
  refine (List.perm_ext_iff_of_nodup ?_ h.chained.frames.nodup).2 fun p => ?_
  · rw [List.nodup_flatMap]
    refine ⟨fun id _ => hs.members.nodup id, (h.table_eq ▸ hs.nodup).imp fun {id id'} hne p hp hp' => ?_⟩
    exact hne (hs.members.eq_of_mem hp hp')
  · rw [List.mem_flatMap]
    constructor
    · rintro ⟨id, -, hp⟩
      exact h.chained.resident p fun hp' => (hs.mem_iff.1 hp).2 ((hs.link_of_mem hp).symm.trans hp')
    · intro hp
      have hlink := h.on_chain p hp
      exact ⟨m.base.heap.link p, h.table_eq ▸ hs.link_mem_table hlink, hs.mem_iff.2 ⟨rfl, hlink⟩⟩

theorem noFrameLost (h : Leveled n m slots L) : NoFrameLost m := by
  have hs := h.chained.structured
  have hf := h.chained.frames
  refine ⟨fun p hp => ?_, fun p hp id hid => ?_, ?_⟩
  · exact h.table_eq ▸ hs.link_mem_table (h.on_chain p (hf.getFromMemory_isSome.1 hp))
  · rw [h.pages_eq hid]
    constructor
    · rintro ⟨pages, hpages, hp⟩
      obtain rfl := Except.ok.inj hpages
      exact (hs.link_of_mem hp).symm
    · rintro rfl
      exact ⟨_, rfl, hs.mem_iff.2 ⟨rfl, h.on_chain p (hf.getFromMemory_isSome.1 hp)⟩⟩
  · have hsize : (m.chains.map fun id => (m.base.policy.chains id).size) =
        (m.chains.map fun id => (L id).length).map Nat.cast := by
      rw [List.map_map]
      exact List.map_congr_left fun id hid => (hs.holds id (h.table_eq ▸ hid)).size
    have hcount : m.base.memory.countP (·.isSome) = slots.length := by
      rw [hf.memory_eq, List.countP_append, List.countP_map, List.countP_replicate]
      simp
    rw [hsize, hcount, ← h.flatMap_perm.length_eq, List.length_flatMap, Nat.cast_list_sum]

/-- The other pages of the chain of a page that is hated are on none. -/
theorem not_noFrameLost (h : Leveled n m slots L) (hn : n ≤ 2147483647)
    (halone : ¬AloneOrDefault m call) (hst : LevelStep m call m') : ¬NoFrameLost m' := by
  obtain ⟨hmem, -, -, heq⟩ := hst
  cases call with
  | hate page l =>
    have hf := h.chained.frames
    have hp := hf.getFromMemory_isSome.1 (hmem page List.mem_cons_self)
    rw [AloneOrDefault] at halone
    push Not at halone
    obtain ⟨hdefault, q, hq, hlink, hqp⟩ := halone
    obtain ⟨heap₁, policy₁, L₁, hhate, h₁, hr₁⟩ := h.chained.hate page
    obtain ⟨heap, policy, L', hlove, h', hr⟩ :=
      h₁.love hn (hr₁.table_eq.symm ▸ h.table_eq ▸ h.default_mem) hp
    simp only [LevelCall.exec, MultiLevelMemoryManager.hate, hf.getFromMemory_of_mem hp] at heq
    have hdefault' : (m.base.heap.page page).link ≠ m.defaultChain := hdefault
    rw [if_pos hdefault', hhate, ok_bind, hlove] at heq
    obtain rfl := Except.ok.inj heq
    -- The page `q` was on the chain.
    have hq₁ : heap₁.link q = -1 := (hr₁.link_eq q).trans (if_pos hlink)
    have hq' : heap.link q = -1 :=
      (hr.link_eq q).trans ((Function.update_of_ne hqp ..).trans hq₁)
    intro hlost
    have hmem := hlost.link_mem q hq
    change heap.link q ∈ m.chains at hmem
    rw [hq', h.table_eq] at hmem
    exact h.chained.structured.ne_of_mem_table hmem rfl
  | _ => exact absurd trivial halone

end Leveled

/-- No frame is lost as long as no page is hated that is on a chain with others, the default one apart,
    and frames are lost when one has been. -/
theorem no_frame_lost {n : ℕ} (hn : n ≤ 2147483647) :
    (∀ m, (LevelSystem n).ReachableBy AloneOrDefault m → NoFrameLost m) ∧
      ∀ m call m', (LevelSystem n).ReachableBy AloneOrDefault m → LevelStep m call m' →
        ¬AloneOrDefault m call → ¬NoFrameLost m' := by
  refine ⟨fun m hm => ?_, fun m call m' hm hst halone => ?_⟩
  · obtain ⟨slots, L, h⟩ := Leveled.of_reachable hn hm
    exact h.noFrameLost
  · obtain ⟨slots, L, h⟩ := Leveled.of_reachable hn hm
    exact h.not_noFrameLost hn halone hst

/-- Two pages are on a chain. -/
def chainOfTwo : List LevelCall :=
  [.access [0] 0 1, .access [0] 0 2, .chain, .love 1 1, .love 2 1]

theorem chainOfTwo_reachable :
    ∃ m, (LevelSystem 2).ReachableBy AloneOrDefault m ∧ m.base.heap.link 1 = 1 ∧
      m.base.heap.link 2 = 1 ∧ m.defaultChain = 0 ∧ (m.base.getFromMemory 1).isSome = true ∧
      (m.base.getFromMemory 2).isSome = true := by
  have heq : (chainOfTwo.foldlM LevelCall.checked (.make 2 {})).map (fun m =>
      (m.base.heap.link 1, m.base.heap.link 2, m.defaultChain, (m.base.getFromMemory 1).isSome,
        (m.base.getFromMemory 2).isSome)) = .ok (1, 1, 0, true, true) := by
    rfl
  obtain ⟨m, hm, hrest⟩ := map_eq_ok heq
  simp only [Prod.mk.injEq] at hrest
  refine ⟨m, .foldlM (fun _ _ _ => LevelStep.of_checked) (fun m call hcall => ?_)
    (.init ⟨{}, rfl⟩) hm, hrest⟩
  rw [chainOfTwo] at hcall
  fin_cases hcall <;> trivial

/-- Two pages are loved at one level. -/
theorem no_frame_lost_two :
    ∃ m, (LevelSystem 2).ReachableBy AloneOrDefault m ∧ m.base.heap.link 1 = 1 ∧ NoFrameLost m := by
  obtain ⟨m, hm, hlink, -⟩ := chainOfTwo_reachable
  exact ⟨m, hm, hlink, (no_frame_lost (by decide)).1 m hm⟩

/-- One of the pages of a chain is hated. -/
theorem frame_lost : ∃ m, (LevelSystem 2).Reachable m ∧ ¬NoFrameLost m := by
  have heq : ((chainOfTwo ++ [LevelCall.hate 1 0]).foldlM LevelCall.checked (.make 2 {})).map (fun m =>
      (m.base.heap.link 2, (m.base.getFromMemory 2).isSome, m.chains)) = .ok (-1, true, [1, 0]) := by
    rfl
  obtain ⟨m, hm, hrest⟩ := map_eq_ok heq
  simp only [Prod.mk.injEq] at hrest
  obtain ⟨hlink, hres, hchains⟩ := hrest
  refine ⟨m, .foldlM (fun _ _ _ => LevelStep.of_checked) (fun _ _ _ => trivial)
    (.init ⟨{}, rfl⟩) hm, fun hlost => ?_⟩
  have hmem := hlost.link_mem 2 hres
  rw [hlink, hchains] at hmem
  exact absurd hmem (by decide)

end Mcpq.Simulator
