import Mcpq.Simulator.EffectiveTime

/-!
# The oldest unit

The runs of a memory manager with the chained LRU policy, without pins and anchors. The sample of the
effective time of a chain is kept when pages leave the chain, and is not lowered: a full memory evicts a
page of the oldest unit as long as a page leaves its chain only if it is alone on it or another page of
the chain is as recent as the sample, and joins an empty chain only if it is as recent as the sample of
the chain (`evictsOldestUnit`).
-/

namespace Mcpq.Simulator

open ChainedLeastRecentlyUsed

/-- The effective time of the unit of a page in memory: its own time, or the greatest time of the pages of
    its chain. -/
def effectiveTime (m : ChainedManager) (p : PageRef) : ℕ :=
  if m.heap.link p = -1 then m.heap.time p
  else greatest m.heap.time
    ((m.memory.filterMap id).filter fun q => decide (m.heap.link q = m.heap.link p))

/-- If memory is full, the search finds a page in memory, of a unit of least effective time. -/
def EvictsOldestUnit (m : ChainedManager) : Prop :=
  m.isFull = true → (∃ q, some q ∈ m.memory) →
    ∃ p heap policy, m.policy.findPageToEvict m.heap m.memory = .ok (some p, heap, policy) ∧
      some p ∈ m.memory ∧ ∀ q, some q ∈ m.memory → effectiveTime m p ≤ effectiveTime m q

/-- An access, or a call that links or unlinks pages: a page is unlinked from no chain but its own, and
    there are no pins and no anchors. -/
def LovesOrHates (m : ChainedManager) : PolicyCall → Prop
  | .newAnchoredChain anchored => anchored = false
  | .lovePin _ _ pin => pin = false
  | .findPageToEvict _ => False
  | call => OwnChain m call

/-- The page is alone on its chain, or another page of the chain is as recent as the sample. -/
def MayLeave (m : ChainedManager) (page : PageRef) : Prop :=
  ∀ r, r ≠ page → m.heap.link r = m.heap.link page → m.heap.link page ≠ -1 →
    ∃ q, q ≠ page ∧ m.heap.link q = m.heap.link page ∧
      (m.policy.chains (m.heap.link page)).timestamp ≤ m.heap.time q

/-- The chain is not empty, or the page is as recent as its sample. -/
def MayJoin (m : ChainedManager) (page : PageRef) (link : ℤ) : Prop :=
  (∀ q, m.heap.link q ≠ link) → (m.policy.chains link).timestamp ≤ m.heap.time page

/-- The samples of the chains stay right. -/
def KeepsSamples (m : ChainedManager) : PolicyCall → Prop
  | .love page link => (m.heap.link page ≠ link → MayLeave m page) ∧ MayJoin m page link
  | .lovePin page link _ => (m.heap.link page ≠ link → MayLeave m page) ∧ MayJoin m page link
  | .hateLink page _ => MayLeave m page
  | _ => True

theorem LovesOrHates.ownChain {m : ChainedManager} {call : PolicyCall} (h : LovesOrHates m call) :
    OwnChain m call := by
  cases call with
  | hateLink page link => exact h
  | _ => trivial

variable {s s' : ChainedLeastRecentlyUsed} {h h' : Heap} {L : ℤ → List PageRef} {id : ℤ}
  {p q : PageRef} {link : PageRef → ℤ}

namespace Dated

theorem make (clock : LogicalClock) : Dated {} { clock } :=
  ⟨fun _ => rfl, fun _ => rfl, fun _ => le_rfl, fun _ hp => absurd rfl hp⟩

/-- Pages are linked and unlinked. -/
theorem relink (hd : Dated s h) (hu : s'.Unpinned) (hr : Relinks s h s' h' link)
    (hrecent : ∀ p, link p ≠ -1 →
      ∃ q, link q = link p ∧ (s.chains (link p)).timestamp ≤ h.time q) : Dated s' h' where
  unpinned := hu
  not_anchored id := (congrArg (·.2.1) (hr.fixed_eq id)).trans (hd.not_anchored id)
  sample_le id := by
    rw [hr.sample_eq]
    exact (congrArg (·.2.2.2) (hr.fixed_eq id)).trans_le (hd.sample_le id)
  recent p hp := by
    rw [hr.link_eq] at hp ⊢
    obtain ⟨q, hq, hle⟩ := hrecent p hp
    refine ⟨q, (hr.link_eq q).trans hq, ?_⟩
    rw [hr.time_eq]
    exact (congrArg (·.2.2.1) (hr.fixed_eq _)).trans_le hle

/-- A page leaves its chain, and joins the chain `id`. -/
theorem recent_update {m : ChainedManager} (hd : Dated m.policy m.heap)
    (hleave : m.heap.link p ≠ id → MayLeave m p) (hjoin : id = -1 ∨ MayJoin m p id) (r : PageRef)
    (hr : Function.update m.heap.link p id r ≠ -1) :
    ∃ q, Function.update m.heap.link p id q = Function.update m.heap.link p id r ∧
      (m.policy.chains (Function.update m.heap.link p id r)).timestamp ≤ m.heap.time q := by
  have hother : ∀ q, q ≠ p → Function.update m.heap.link p id q = m.heap.link q := fun q hq =>
    Function.update_of_ne hq ..
  have hself : Function.update m.heap.link p id p = id := Function.update_self ..
  generalize hd' : Function.update m.heap.link p id r = d at hr ⊢
  rcases eq_or_ne d id with rfl | hdid
  · -- The chain that the page joins.
    by_cases hempty : ∀ q, m.heap.link q ≠ d
    · exact ⟨p, hself, hjoin.resolve_left hr hempty⟩
    · push Not at hempty
      obtain ⟨q₀, hq₀⟩ := hempty
      obtain ⟨q, hq, hle⟩ := hd.recent q₀ (hq₀ ▸ hr)
      rw [hq₀] at hq hle
      rcases eq_or_ne q p with rfl | hqp
      · exact ⟨q, hself, hle⟩
      · exact ⟨q, (hother q hqp).trans hq, hle⟩
  · -- Another chain, which the page may have left.
    have hrp : r ≠ p := by
      rintro rfl
      exact hdid (hd'.symm.trans hself)
    have hlink : m.heap.link r = d := (hother r hrp).symm.trans hd'
    obtain ⟨q, hq, hle⟩ := hd.recent r (hlink ▸ hr)
    rw [hlink] at hq hle
    rcases eq_or_ne q p with rfl | hqp
    · obtain ⟨q', hq', hlink', hle'⟩ := hleave (hq.trans_ne hdid) r hrp (hlink.trans hq.symm)
        (hq.trans_ne hr)
      rw [hq] at hlink' hle'
      exact ⟨q', (hother q' hq').trans hlink', hle'⟩
    · exact ⟨q, (hother q hqp).trans hq, hle⟩

/-- All the pages of the chain `id` leave it. -/
theorem recent_ite (hd : Dated s h) (id : ℤ) (r : PageRef)
    (hr : (if h.link r = id then -1 else h.link r) ≠ -1) :
    ∃ q, (if h.link q = id then -1 else h.link q) = (if h.link r = id then -1 else h.link r) ∧
      (s.chains (if h.link r = id then -1 else h.link r)).timestamp ≤ h.time q := by
  have hrid : h.link r ≠ id := fun hrid => hr (if_pos hrid)
  rw [if_neg hrid] at hr ⊢
  obtain ⟨q, hq, hle⟩ := hd.recent r hr
  exact ⟨q, (if_neg (hq.trans_ne hrid)).trans hq, hle⟩

/-- A chain is created. -/
theorem addChain (hd : Dated s h) : Dated (s.addChain (.unbounded s.linkId false)).2 h := by
  have hchain : ∀ d, (s.addChain (.unbounded s.linkId false)).2.chains d =
      if d = s.linkId then .unbounded s.linkId false else s.chains d := fun d =>
    Function.update_apply ..
  refine ⟨fun d => ?_, fun d => ?_, fun d => ?_, fun p hp => ?_⟩
  · rw [hchain]
    split_ifs
    · rfl
    · exact hd.unpinned d
  · rw [hchain]
    split_ifs
    · rfl
    · exact hd.not_anchored d
  · rw [hchain]
    split_ifs
    · exact Nat.zero_le _
    · exact hd.sample_le d
  · rw [hchain]
    split_ifs
    · exact ⟨p, rfl, Nat.zero_le _⟩
    · exact hd.recent p hp

/-- The pages are written, but not their links, and get no older. -/
theorem congr (hd : Dated s h) (hlink : ∀ q, h'.link q = h.link q)
    (htime : ∀ q, h.link q ≠ -1 → h.time q ≤ h'.time q) : Dated s h' where
  unpinned := hd.unpinned
  not_anchored := hd.not_anchored
  sample_le := hd.sample_le
  recent p hp := by
    rw [hlink] at hp ⊢
    obtain ⟨q, hq, hle⟩ := hd.recent p hp
    exact ⟨q, (hlink q).trans hq, hle.trans (htime q (hq.trans_ne hp))⟩

end Dated

/-- The samples are right, and no page in memory is stamped later than now. -/
structure Dating (m : ChainedManager) : Prop where
  dated : Dated m.policy m.heap
  time_le : ∀ p, some p ∈ m.memory → m.heap.time p ≤ m.heap.clock.current

namespace Dating

variable {n : ℕ} {m m' : ChainedManager} {slots slots' : List PageRef} {a : ℤ} {k : ℕ}

theorem layout (hd : Dating m) (hf : Frames n m slots) : Layout n m slots :=
  ⟨hf, fun p hp => hd.time_le p (hf.mem_memory.2 hp)⟩

theorem of_layout (hl : Layout n m slots) (hd : Dated m.policy m.heap) : Dating m :=
  ⟨hd, fun p hp => hl.time_le p (hl.mem_memory.1 hp)⟩

/-- A page is referenced. -/
theorem referenced (hd : Dating m) (hc : Chained n m slots L)
    (hr : References m.heap m'.heap a k) (hpolicy : m'.policy = m.policy) (hl : Layout n m' slots') :
    Dating m' := by
  refine of_layout hl (hpolicy ▸ hd.dated.congr (fun q => congrArg (·.2.1) (hr.hints q)) fun q hq => ?_)
  rcases eq_or_ne q a with rfl | hqa
  · rw [hr.time_eq, hr.clock_eq]
    exact ((hd.layout hc.frames).time_le q (hc.resident q hq)).trans (Nat.le_add_right _ _)
  · exact (congrArg MemoryPage.time (hr.page_eq q hqa)).ge

/-- A search of a full memory of a page or more. -/
theorem find (hd : Dating m) (hc : Chained n m slots L) (hne : slots ≠ []) :
    ∃ p ∈ slots, ∃ heap policy,
      m.policy.findPageToEvict m.heap (slots.map some) = .ok (some p, heap, policy) ∧
      Dated policy heap ∧ (∀ q, heap.time q = m.heap.time q) ∧ heap.clock = m.heap.clock ∧
      ∀ q ∈ slots, unitTime m.heap L p ≤ unitTime m.heap L q :=
  hd.dated.find hc.structured hne hc.resident (hd.layout hc.frames).time_le

theorem evicted (hd : Dating m) (hc : Chained n m slots L) (ha : a ∉ slots)
    (hfull : slots.length = n) (hne : slots ≠ []) :
    ∃ m' o, m.access chainedLeastRecentlyUsedReplacementPolicy a = .ok (m', o) ∧ Dating m' := by
  obtain ⟨p, hp, heap, policy, hfind, hd₁, htime, hclock, -⟩ := hd.find hc hne
  obtain ⟨L', hs, -, hdisk, hpage, hlink, -⟩ := hc.structured.find_ok hfind
  obtain ⟨m', slots', heq, hl, hpolicy, hhints, hserves⟩ := (hd.layout hc.frames).access_evict
    (P := chainedLeastRecentlyUsedReplacementPolicy) (V := fun _ => True) ha hfull hp hfind htime
    hclock hdisk (fun q _ => hpage q) trivial
  refine ⟨m', _, heq, of_layout hl (hpolicy ▸ hd₁.congr (fun q => congrArg (·.2.1) (hhints q))
    fun q hq => ?_)⟩
  -- A page that is still on a chain stays in memory, and is not the one accessed.
  rw [hlink] at hq
  split_ifs at hq with hqp
  · exact absurd rfl hq
  · have hqs := hc.resident q hq
    have hqs' := (hserves.mem_iff q).2 (.inr ⟨hqs, fun ho => hqp (Outcome.fault.inj ho)⟩)
    rw [htime, hserves.stamp_eq q hqs hqs' fun hqa => ha (hqa ▸ hqs)]

theorem access {o : Outcome ℤ} (hd : Dating m) (hc : Chained n m slots L)
    (heq : m.access chainedLeastRecentlyUsedReplacementPolicy a = .ok (m', o)) : Dating m' := by
  by_cases ha : a ∈ slots
  · rw [MemoryManager.access, hc.frames.getFromMemory_of_mem ha] at heq
    obtain rfl := congrArg Prod.fst (Except.ok.inj heq)
    exact hd.referenced hc (references_updateRefStats (hc.frames.disk a ha)) rfl
      ((hd.layout hc.frames).hit ha)
  · rcases hc.frames.length_le.lt_or_eq with hlt | hlen
    · -- The page is loaded to a free slot.
      obtain ⟨m₁, heq₁, hpolicy, hr, hl⟩ := (hd.layout hc.frames).append ha hlt
      have hfull : ¬m.isFull = true := fun hfull => hlt.ne (hc.frames.isFull_iff.1 hfull)
      rw [MemoryManager.access, hc.frames.getFromMemory_of_not_mem ha] at heq
      simp only [MemoryManager.freePosition, if_neg hfull, ok_bind, heq₁] at heq
      obtain rfl := congrArg Prod.fst (Except.ok.inj heq)
      exact hd.referenced hc hr hpolicy hl
    · rcases eq_or_ne slots [] with rfl | hne
      · -- A memory without frames has no page to evict.
        have hmem : m.memory = [] := hc.frames.memory_of_full hlen
        rw [MemoryManager.access, hc.frames.getFromMemory_of_not_mem ha] at heq
        simp only [MemoryManager.freePosition, hc.frames.isFull_iff.2 hlen, if_true, hmem,
          chainedLeastRecentlyUsedReplacementPolicy, findPageToEvict] at heq
        cases heq
      · obtain ⟨m₁, o₁, heq₁, hd₁⟩ := hd.evicted hc ha hlen hne
        obtain rfl := congrArg Prod.fst (Except.ok.inj (heq₁.symm.trans heq))
        exact hd₁

/-- Pages are linked and unlinked. -/
theorem relink {heap : Heap} {policy : ChainedLeastRecentlyUsed} (hd : Dating m)
    (hu : policy.Unpinned) (hr : Relinks m.policy m.heap policy heap link)
    (hrecent : ∀ p, link p ≠ -1 →
      ∃ q, link q = link p ∧ (m.policy.chains (link p)).timestamp ≤ m.heap.time q) :
    Dating { m with heap, policy } := by
  refine ⟨hd.dated.relink hu hr hrecent, fun p hp => ?_⟩
  rw [hr.time_eq, hr.clock_eq]
  exact hd.time_le p hp

open PolicyCall in
theorem step {call : PolicyCall} (hd : Dating m) (hc : Chained n m slots L) (hn : n ≤ 2147483647)
    (hcall : LovesOrHates m call) (hkeeps : KeepsSamples m call) (hst : PolicyStep m call m') :
    Dating m' := by
  obtain ⟨hmem, hlink, heq⟩ := hst
  have hpage : ∀ p, p ∈ call.pages → p ∈ slots ∧ m.getFromMemory p = some p := fun p hp =>
    have hp := hc.frames.getFromMemory_isSome.1 (hmem p hp)
    ⟨hp, hc.frames.getFromMemory_of_mem hp⟩
  have hu := hd.dated.unpinned
  cases call with
  | access address =>
    obtain ⟨⟨m₁, o⟩, haccess, rfl⟩ := map_eq_ok heq
    exact hd.access hc haccess
  | newChain =>
    obtain rfl := Except.ok.inj heq
    exact ⟨hd.dated.addChain, hd.time_le⟩
  | newAnchoredChain anchored =>
    -- An anchored chain is anchored only if its flag is set.
    obtain rfl : anchored = false := hcall
    obtain rfl := Except.ok.inj heq
    exact ⟨hd.dated.addChain, hd.time_le⟩
  | love page link =>
    -- The chain that the page leaves and the one it joins have a page as recent as their samples.
    obtain ⟨hp, hget⟩ := hpage page List.mem_cons_self
    obtain ⟨heap, policy, L', hlove, -, hr⟩ := hc.love hn (hlink link rfl) hp
    simp only [exec, MemoryManager.love, chainedLeastRecentlyUsedReplacementPolicy, hget, hlove, ok_bind,
      pure_eq_ok] at heq
    obtain rfl := Except.ok.inj heq
    exact hd.relink (hu.love hlove) hr (hd.dated.recent_update hkeeps.1 (.inr hkeeps.2))
  | lovePin page link pin =>
    obtain rfl : pin = false := hcall
    obtain ⟨hp, hget⟩ := hpage page List.mem_cons_self
    obtain ⟨heap, policy, L', hlove, -, hr⟩ := hc.lovePin hn (hlink link rfl) hp false
    simp only [exec, MemoryManager.lovePin, chainedLeastRecentlyUsedReplacementPolicy, hget, hlove,
      ok_bind, pure_eq_ok] at heq
    obtain rfl := Except.ok.inj heq
    exact hd.relink (hu.lovePin hlove) hr (hd.dated.recent_update hkeeps.1 (.inr hkeeps.2))
  | hate page =>
    obtain ⟨hp, hget⟩ := hpage page List.mem_cons_self
    obtain ⟨heap, policy, L', hhate, -, hr⟩ := hc.hate page
    simp only [exec, hget, hhate, ok_bind, pure_eq_ok] at heq
    obtain rfl := Except.ok.inj heq
    exact hd.relink (hu.hate hhate) hr (hd.dated.recent_ite _)
  | hateLink page link =>
    -- The page leaves its chain, which keeps a page as recent as its sample.
    obtain ⟨hp, hget⟩ := hpage page List.mem_cons_self
    obtain ⟨heap, policy, L', hhate, -, hr⟩ := hc.hateLink (hlink link rfl) hp hcall
    simp only [exec, MemoryManager.hate, chainedLeastRecentlyUsedReplacementPolicy, hget,
      hhate] at heq
    obtain rfl := Except.ok.inj heq
    exact hd.relink (hu.chainUnlink hhate) hr
      (hd.dated.recent_update (fun _ => hkeeps) (.inl rfl))
  | hateChain link =>
    obtain ⟨heap, policy, L', hhate, -, hr⟩ := hc.structured.hateChain_spec (hlink link rfl)
    simp only [exec, hhate, ok_bind, pure_eq_ok] at heq
    obtain rfl := Except.ok.inj heq
    have hd' : Dating { m with heap, policy } :=
      hd.relink (fun d => hu.hateChain hhate d) hr (hd.dated.recent_ite _)
    exact ⟨{ hd'.dated with }, hd'.time_le⟩
  | findPageToEvict pages => exact hcall.elim

/-- The unit of a page is the same whether its chain is searched in memory or on its list. -/
theorem effectiveTime_eq (hc : Chained n m slots L) (p : PageRef) :
    effectiveTime m p = unitTime m.heap L p := by
  rw [effectiveTime, unitTime]
  split_ifs with hp
  · rfl
  · refine greatest_congr fun q => ?_
    rw [List.mem_filter, List.mem_filterMap, decide_eq_true_iff, hc.structured.mem_iff]
    constructor
    · exact fun hq => ⟨hq.2, hp⟩
    · exact fun hq => ⟨⟨some q, hc.frames.mem_memory.2 (hc.resident q (hq.1.trans_ne hp)), rfl⟩, hq.1⟩

theorem evicts (hd : Dating m) (hc : Chained n m slots L) : EvictsOldestUnit m := by
  rintro hfull ⟨q, hq⟩
  have hlen := hc.frames.isFull_iff.1 hfull
  obtain ⟨p, hp, heap, policy, heq, -, -, -, hle⟩ :=
    hd.find hc (List.ne_nil_of_mem (hc.frames.mem_memory.1 hq))
  rw [← hc.frames.memory_of_full hlen] at heq
  refine ⟨p, heap, policy, heq, hc.frames.mem_memory.2 hp, fun r hr => ?_⟩
  rw [effectiveTime_eq hc, effectiveTime_eq hc]
  exact hle r (hc.frames.mem_memory.1 hr)

theorem of_reachable (hn : n ≤ 2147483647) (hm : (ChainedSystem n).ReachableBy
    (fun m call => LovesOrHates m call ∧ KeepsSamples m call) m) :
    (∃ slots L, Chained n m slots L) ∧ Dating m := by
  refine hm.invariant (I := fun m => (∃ slots L, Chained n m slots L) ∧ Dating m)
    (fun m hinit => ?_) fun m call m' h hcall hst => ?_
  · obtain ⟨clock, rfl⟩ := hinit
    refine ⟨⟨_, _, .make clock⟩, .make clock, fun p hp => ?_⟩
    exact absurd ((Frames.make _ clock).mem_memory.1 hp) List.not_mem_nil
  · obtain ⟨⟨slots, L, hc⟩, hd⟩ := h
    exact ⟨hc.step hn hcall.1.ownChain hst, hd.step hc hn hcall.1 hcall.2 hst⟩

end Dating

/-- A full memory evicts a page of the oldest unit in every run whose calls keep the samples right. -/
theorem evictsOldestUnit {n : ℕ} (hn : n ≤ 2147483647) {m : ChainedManager}
    (hm : (ChainedSystem n).ReachableBy (fun m call => LovesOrHates m call ∧ KeepsSamples m call) m) :
    EvictsOldestUnit m := by
  obtain ⟨⟨slots, L, hc⟩, hd⟩ := Dating.of_reachable hn hm
  exact hd.evicts hc

/-- The accesses to three pages, two of which join a chain. -/
def threePages : List PolicyCall := [.access 1, .access 2, .access 3, .newChain]

/-- The older page of a chain of two leaves it. -/
theorem evictsOldestUnit_twoPages : ∃ m, (ChainedSystem 3).ReachableBy
    (fun m call => LovesOrHates m call ∧ KeepsSamples m call) m ∧ m.isFull = true ∧
    m.heap.link 1 = -1 ∧ m.heap.link 2 = 0 ∧ EvictsOldestUnit m := by
  have heq : (threePages.foldlM PolicyCall.checked (.make {} 3 {}) >>= fun m =>
      PolicyCall.checked m (.love 1 0) >>= fun m₁ =>
      PolicyCall.checked m₁ (.love 2 0) >>= fun m₂ =>
      (PolicyCall.checked m₂ (.hateLink 1 0)).map fun m₃ =>
        ((m.heap.link 1, (m.policy.chains 0).timestamp), (m₁.heap.link 1, m₁.heap.link 2),
          (m₂.heap.link 1, m₂.heap.link 2, decide ((m₂.policy.chains 0).timestamp ≤ m₂.heap.time 2)),
          m₃.isFull, m₃.heap.link 1, m₃.heap.link 2)) =
          .ok ((-1, 0), (0, -1), (0, 0, true), true, -1, 0) := by
    rfl
  obtain ⟨m, hm, heq⟩ := bind_eq_ok heq
  obtain ⟨m₁, hm₁, heq⟩ := bind_eq_ok heq
  obtain ⟨m₂, hm₂, heq⟩ := bind_eq_ok heq
  obtain ⟨m₃, hm₃, heq⟩ := map_eq_ok heq
  simp only [Prod.mk.injEq, decide_eq_true_eq] at heq
  obtain ⟨⟨hlink, hstamp⟩, ⟨h₁, h₂⟩, ⟨h₁', h₂', hsample⟩, hfull, hleft, hstays⟩ := heq
  have hreach : (ChainedSystem 3).ReachableBy
      (fun m call => LovesOrHates m call ∧ KeepsSamples m call) m := by
    refine .foldlM (fun _ _ _ => PolicyStep.of_checked) (fun m call hcall => ?_) (.init ⟨{}, rfl⟩) hm
    rw [threePages] at hcall
    fin_cases hcall
    all_goals exact ⟨trivial, trivial⟩
  have hlove₁ : LovesOrHates m (.love 1 0) ∧ KeepsSamples m (.love 1 0) :=
    ⟨trivial, fun _ _ _ _ hne => absurd hlink hne, fun _ => hstamp.trans_le (Nat.zero_le _)⟩
  have hlove₂ : LovesOrHates m₁ (.love 2 0) ∧ KeepsSamples m₁ (.love 2 0) :=
    ⟨trivial, fun _ _ _ _ hne => absurd h₂ hne, fun hne => absurd h₁ (hne 1)⟩
  -- The other page of the chain is as recent as the sample.
  have hhate : LovesOrHates m₂ (.hateLink 1 0) ∧ KeepsSamples m₂ (.hateLink 1 0) :=
    ⟨.inl h₁', fun _ _ _ _ => ⟨2, by decide, h₂'.trans h₁'.symm, by rwa [h₁']⟩⟩
  have hreach' := ((hreach.step hlove₁ (PolicyStep.of_checked hm₁)).step hlove₂
    (PolicyStep.of_checked hm₂)).step hhate (PolicyStep.of_checked hm₃)
  exact ⟨m₃, hreach', hfull, hleft, hstays, evictsOldestUnit (by decide) hreach'⟩

/-- Two pages are on a chain whose sample is the time of the second. -/
def sampledChain : List PolicyCall :=
  [.access 3, .access 1, .access 2, .newChain, .love 1 0, .love 2 0, .access 4]

/-- The second page leaves the chain, and is evicted before the first, which is older. -/
theorem evicts_younger_unit :
    ∃ m, (ChainedSystem 3).ReachableBy LovesOrHates m ∧ ¬EvictsOldestUnit m := by
  have heq : (sampledChain.foldlM PolicyCall.checked (.make {} 3 {}) >>= fun m =>
      (PolicyCall.checked m (.hateLink 2 0)).map fun m' => (m.heap.link 2, m'.isFull, m'.memory,
        (m'.policy.findPageToEvict m'.heap m'.memory).map (·.1), effectiveTime m' 1,
          effectiveTime m' 2)) =
            .ok (0, true, [some 4, some 1, some 2], .ok (some 2), 4, 6) := by
    rfl
  obtain ⟨m, hm, heq⟩ := bind_eq_ok heq
  obtain ⟨m', hm', heq⟩ := map_eq_ok heq
  obtain ⟨hlink, hrest⟩ := Prod.mk.inj heq
  obtain ⟨hfull, hrest⟩ := Prod.mk.inj hrest
  obtain ⟨hmem, hrest⟩ := Prod.mk.inj hrest
  obtain ⟨hpg, hrest⟩ := Prod.mk.inj hrest
  obtain ⟨h₁, h₂⟩ := Prod.mk.inj hrest
  refine ⟨m', .step (.foldlM (fun _ _ _ => PolicyStep.of_checked) (fun m call hcall => ?_)
    (.init ⟨{}, rfl⟩) hm) (show LovesOrHates m (.hateLink 2 0) from .inl hlink)
    (PolicyStep.of_checked hm'), fun hevicts => ?_⟩
  · rw [sampledChain] at hcall
    fin_cases hcall
    all_goals exact trivial
  · obtain ⟨p, heap, policy, hfind, -, hle⟩ := hevicts hfull ⟨1, by rw [hmem]; decide⟩
    rw [hfind] at hpg
    obtain rfl : p = 2 := Option.some.inj (Except.ok.inj hpg)
    have hle := hle 1 (by rw [hmem]; decide)
    rw [h₁, h₂] at hle
    exact absurd hle (by decide)

end Mcpq.Simulator
