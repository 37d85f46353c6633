import Mcpq.Kernel.Structure

/-!
# Blocks of pages that are freed

The page allocator frees the `2 ^ order` pages of a block at once. A block that has been freed should
have left the chains: none of its pages is linked, and each chain counts the links and the evictions
of the pages it has lost (`Detaches`).

The pages are all checked, but the chain code is written for one page: it unlinks the first one. A
block leaves the chains if and only if no other page of it is linked (`detaches_iff`).
-/

namespace Mcpq.Kernel.Mm

variable {s s' s₁ : Mm} {p q page : PageRef} {c d : ChainRef} {m : MemoryChain} {order : ℕ}

/-- The `2 ^ order` pages from `page` on. -/
def block (page : PageRef) (order : ℕ) : List PageRef := List.range' page (2 ^ order)

theorem mem_block : q ∈ block page order ↔ ∃ i, i < 2 ^ order ∧ q = page + i := by
  rw [block, List.mem_range'_1]
  constructor
  · rintro ⟨hle, hlt⟩
    exact ⟨q - page, Nat.sub_lt_left_of_lt_add hle hlt, (Nat.add_sub_cancel' hle).symm⟩
  · rintro ⟨i, hi, rfl⟩
    exact ⟨Nat.le_add_right page i, Nat.add_lt_add_left hi page⟩

/-- The block without its first page. -/
theorem block_eq_cons (page : PageRef) (order : ℕ) :
    block page order = page :: List.range' (page + 1) (2 ^ order - 1) := by
  rw [block]
  obtain ⟨n, hn⟩ := Nat.exists_eq_add_of_lt (Nat.two_pow_pos order)
  rw [hn, Nat.zero_add, List.range'_succ, Nat.add_sub_cancel]

/-- The number of the pages of a list that are linked to a chain. -/
def linkedOf (s : Mm) (l : List PageRef) (c : ChainRef) : ℕ := l.countP fun q => s.home q = some c

/-- What is to happen to the chains when the pages of the list `l` are freed. -/
structure Detaches (s s' : Mm) (l : List PageRef) : Prop where
  home_eq : ∀ q ∈ l, s'.home q = none
  not_mem : ∀ q ∈ l, ∀ c, q ∉ s'.links c
  page_eq : ∀ q, q ∉ l → s'.page q = s.page q
  chain_eq : ∀ c, s.linkedOf l c = 0 → s'.chain c = s.chain c
  counts : ∀ c m, s.chain c = some m → ∃ m', s'.chain c = some m' ∧
    m'.nrLinks = m.nrLinks - s.linkedOf l c ∧ m'.evictCnt = m.evictCnt + s.linkedOf l c

/-! ## The checks -/

/-- What the checks of the pages of the list `l` keep. -/
structure Checks (s s' : Mm) (l : List PageRef) : Prop where
  home_eq : s'.home = s.home
  chain_eq : s'.chain = s.chain
  page_eq : ∀ q, q ∉ l → s'.page q = s.page q

namespace Checks

variable {l : List PageRef}

theorem refl (s : Mm) (l : List PageRef) : Checks s s l := ⟨rfl, rfl, fun _ _ => rfl⟩

/-- A page of the list is updated, but its field `chain` is not. -/
theorem modifyPage (h : Checks s s' l) (hp : p ∈ l) {f : Page → Page}
    (hf : (f (s'.page p)).chain = (s'.page p).chain) : Checks s (s'.modifyPage p f) l where
  home_eq := by
    rw [home_of_page (s := s') rfl, hf, ← h.home_eq]
    exact Function.update_eq_self p s'.home
  chain_eq := h.chain_eq
  page_eq q hq := by
    have hqp : q ≠ p := fun hqp => hq (hqp ▸ hp)
    rw [modifyPage_of_ne f hqp]
    exact h.page_eq q hq

end Checks

/-- The checks do not look at the chains. -/
theorem freePagesChecks_checks (s : Mm) (page : PageRef) (order : ℕ) :
    Checks s ((s.modifyPage page Page.unmapAnon).freePagesChecks page order).1
      (block page order) := by
  have hinit : Checks s (s.modifyPage page Page.unmapAnon) (block page order) :=
    (Checks.refl s _).modifyPage (mem_block.2 ⟨0, Nat.two_pow_pos order, rfl⟩)
      (Page.unmapAnon_chain _)
  rw [freePagesChecks]
  refine List.foldlRecOn (motive := fun r : Mm × ℕ => Checks s r.1 (block page order)) _ _ hinit
    fun r hr i hi => ?_
  exact hr.modifyPage (f := fun _ => (r.1.page (page + i)).freePagesCheck.1)
    (mem_block.2 ⟨i, List.mem_range.1 hi, rfl⟩) (Page.freePagesCheck_chain _)

/-! ## The chain code -/

/-- What the chain code does for a page: the page leaves its chain, which counts an eviction. -/
structure Evicts (s s' : Mm) (p : PageRef) (c : ChainRef) (m m' : MemoryChain) : Prop where
  home_eq : s'.home = Function.update s.home p none
  page_eq : ∀ q, q ≠ p → s'.page q = s.page q
  chain_eq : s'.chain = Function.update s.chain c (some m')
  links_eq : m'.links = m.links.erase p
  nrLinks_eq : m'.nrLinks = m.nrLinks - 1
  evictCnt_eq : m'.evictCnt = m.evictCnt + 1
  anchor_eq : m'.anchor = if m.anchor = some p then none else m.anchor

/-- A page that its chain lists is unlinked. -/
theorem unlinkFreed_evicts [Mlock] (hp : s.home p = some c) (hm : s.chain c = some m)
    (hpm : p ∈ m.links) : ∃ s' m', s.unlinkFreed p = .ok s' ∧ Evicts s s' p c m m' := by
  -- The page may be unlocked before its field is reset.
  obtain ⟨s₁, hs₁⟩ : ∃ s₁, (if m.anchor = some p then
      (s.setChain c (some { m with evictCnt := m.evictCnt + 1 })).modifyPage p Mlock.munlockVmaPage
      else s.setChain c (some { m with evictCnt := m.evictCnt + 1 })) = s₁ := ⟨_, rfl⟩
  obtain ⟨hchain, y, hpage⟩ : s₁.chain =
      Function.update s.chain c (some { m with evictCnt := m.evictCnt + 1 }) ∧
        ∃ y : Page, s₁.page = Function.update s.page p y := by
    subst hs₁
    split_ifs
    · exact ⟨rfl, _, rfl⟩
    · exact ⟨rfl, s.page p, (Function.update_eq_self ..).symm⟩
  obtain ⟨m', hm'⟩ : ∃ m' : MemoryChain, m' = { m with
      links := m.links.erase p
      anchor := if m.anchor = some p then none else m.anchor
      delegate := if m.delegate = some p then none else m.delegate
      nrLinks := m.nrLinks - 1
      refCounter := if (s₁.page p).referenced then m.refCounter - 1 else m.refCounter
      evictCnt := m.evictCnt + 1 } := ⟨_, rfl⟩
  refine ⟨(s₁.setChain c (some m')).modifyPage p fun p => { p with chain := none }, m', ?_, ?_⟩
  · rw [unlinkFreed, show (s.page p).chain = some c from hp]
    dsimp only
    rw [modifyChain_eq hm, ok_bind, unlinkPage, setChain_page, show (s.page p).chain = some c from hp]
    dsimp only
    rw [derefChain_eq_ok.2 (setChain_self _), ok_bind, listDel, if_pos hpm, ok_bind]
    dsimp only
    rw [hs₁, ← hm', resetPage, Bool.false_and, if_neg Bool.false_ne_true]
  · have hpage' : ((s₁.setChain c (some m')).modifyPage p fun p => { p with chain := none }).page =
        Function.update s.page p { s₁.page p with chain := none } := by
      change Function.update s₁.page p { s₁.page p with chain := none } = _
      nth_rewrite 1 [hpage]
      rw [Function.update_idem]
    refine ⟨home_of_page hpage', fun q hq => ?_, ?_, ?_, ?_, ?_, ?_⟩
    · rw [hpage', Function.update_of_ne hq]
    · change Function.update s₁.chain c _ = _
      rw [hchain, Function.update_idem]
    all_goals rw [hm']

/-! ## Blocks -/

/-- Either the first page of the block is not linked, and no chain changes, or it is evicted. -/
theorem freePagesPrepare_cases [Mlock] (h : Members s.home s.links)
    (heq : s.freePagesPrepare page order = .ok (s', true)) :
    ∃ s₁, Checks s s₁ (block page order) ∧ ((s.home page = none ∧ s' = s₁) ∨
      ∃ c m m', s.home page = some c ∧ s.chain c = some m ∧ Evicts s₁ s' page c m m') := by
  have hs₁ := freePagesChecks_checks s page order
  refine ⟨_, hs₁, ?_⟩
  rw [freePagesPrepare] at heq
  split_ifs at heq
  · cases congrArg Prod.snd (Except.ok.inj heq)
  · obtain ⟨s₂, heq₂, heq⟩ := bind_eq_ok.1 heq
    obtain rfl : s₂ = s' := congrArg Prod.fst (Except.ok.inj heq)
    cases hp : s.home page with
    | none =>
      refine .inl ⟨rfl, ?_⟩
      rw [← hs₁.home_eq, home] at hp
      rw [unlinkFreed, hp] at heq₂
      exact (Except.ok.inj heq₂).symm
    | some c =>
      obtain ⟨m, hm, hpm⟩ := live_of_home h hp
      obtain ⟨s₃, m', heq₃, hev⟩ := unlinkFreed_evicts ((congrFun hs₁.home_eq page).trans hp)
        ((congrFun hs₁.chain_eq c).trans hm) hpm
      obtain rfl := Except.ok.inj (heq₃.symm.trans heq₂)
      exact .inr ⟨c, m, m', rfl, hm, hev⟩

/-- The first page of the block, and no other one, loses its chain. -/
theorem freePagesPrepare_home [Mlock] (h : Members s.home s.links)
    (heq : s.freePagesPrepare page order = .ok (s', true)) :
    s'.home = Function.update s.home page none ∧ Members s'.home s'.links := by
  obtain ⟨s₁, hs₁, ⟨hp, rfl⟩ | ⟨c, m, m', hp, hm, hev⟩⟩ := freePagesPrepare_cases h heq
  · have hlinks : s'.links = s.links := by
      funext c
      rw [links, links, hs₁.chain_eq]
    rw [hlinks, hs₁.home_eq]
    refine ⟨?_, h⟩
    rw [← hp, Function.update_eq_self]
  · have hlinks : s'.links = Function.update s.links c ((s.links c).erase page) := by
      rw [links_of_update (hs₁.chain_eq ▸ hev.chain_eq), hev.links_eq, links_of_chain hm]
    rw [hlinks, hev.home_eq, hs₁.home_eq]
    exact ⟨rfl, h.detach hp⟩

/-- If no other page of the block is linked, only the first one counts. -/
theorem linkedOf_block (hrest : ∀ i, 0 < i → i < 2 ^ order → s.home (page + i) = none)
    (c : ChainRef) : s.linkedOf (block page order) c = if s.home page = some c then 1 else 0 := by
  have hzero : (List.range' (page + 1) (2 ^ order - 1)).countP (fun q => s.home q = some c) = 0 := by
    refine List.countP_eq_zero.2 fun q hq => ?_
    rw [List.mem_range'_1] at hq
    have hq' : s.home q = none := by
      rw [show q = page + (q - page) from (Nat.add_sub_cancel' (Nat.le_of_lt hq.1)).symm]
      have hlt : q < page + 2 ^ order := by
        have hlt := hq.2
        rwa [Nat.add_assoc, Nat.add_sub_cancel' (Nat.two_pow_pos order)] at hlt
      exact hrest _ (Nat.sub_pos_of_lt hq.1) (Nat.sub_lt_left_of_lt_add (Nat.le_of_lt hq.1) hlt)
    simp [hq']
  rw [linkedOf, block_eq_cons, List.countP_cons, hzero, Nat.zero_add]
  simp only [decide_eq_true_eq]

/-- A block that is freed leaves the chains if and only if no page of it but the first one is
    linked. -/
theorem detaches_iff [Mlock] (h : Members s.home s.links)
    (heq : s.freePagesPrepare page order = .ok (s', true)) :
    Detaches s s' (block page order) ↔
      ∀ i, 0 < i → i < 2 ^ order → s.home (page + i) = none := by
  obtain ⟨hhome, hmem⟩ := freePagesPrepare_home h heq
  constructor
  · -- Only the first page of the block is unlinked.
    intro hd i hi hlt
    have hne : page + i ≠ page := (Nat.lt_add_of_pos_right hi).ne'
    have hi' := hd.home_eq (page + i) (mem_block.2 ⟨i, hlt, rfl⟩)
    rwa [hhome, Function.update_of_ne hne] at hi'
  · intro hrest
    have hnone : ∀ q ∈ block page order, s'.home q = none := fun q hq => by
      obtain ⟨i, hi, rfl⟩ := mem_block.1 hq
      rw [hhome]
      rcases Nat.eq_zero_or_pos i with rfl | hpos
      · exact Function.update_self ..
      · rw [Function.update_of_ne (Nat.lt_add_of_pos_right hpos).ne']
        exact hrest i hpos hi
    have hfirst : page ∈ block page order := mem_block.2 ⟨0, Nat.two_pow_pos order, rfl⟩
    -- The first page is the only one that its chain loses, so that the counters of the chain agree.
    have hcount := linkedOf_block hrest
    refine ⟨hnone, fun q hq c => hmem.not_mem (hnone q hq), ?_, fun c hc => ?_, fun c m hm => ?_⟩
    -- The page is on no chain, or it is unlinked from its chain.
    all_goals obtain ⟨s₁, hs₁, ⟨hp, rfl⟩ | ⟨d, n, m', hp, hn, hev⟩⟩ := freePagesPrepare_cases h heq
    · exact hs₁.page_eq
    · intro q hq
      exact (hev.page_eq q fun hqp => hq (hqp ▸ hfirst)).trans (hs₁.page_eq q hq)
    · rw [hs₁.chain_eq]
    · rw [hcount c, hp] at hc
      have hcd : c ≠ d := fun hcd => by
        rw [hcd, if_pos rfl] at hc
        cases hc
      rw [hev.chain_eq, Function.update_of_ne hcd, hs₁.chain_eq]
    · refine ⟨m, (congrFun hs₁.chain_eq c).trans hm, ?_⟩
      rw [hcount c, hp]
      simp
    · rw [hcount c, hp, hev.chain_eq]
      by_cases hcd : c = d
      · obtain rfl : n = m := Option.some.inj (hn.symm.trans (hcd ▸ hm))
        rw [hcd, Function.update_self, if_pos rfl]
        exact ⟨m', rfl, hev.nrLinks_eq, hev.evictCnt_eq⟩
      · refine ⟨m, ?_, ?_⟩
        · rw [Function.update_of_ne hcd, hs₁.chain_eq, hm]
        · simp [Ne.symm hcd]

/-! ## The second page of a block -/

/-- A page that has been allocated and linked has no users any more. -/
def oneLinked (p : PageRef) : List Op :=
  [.allocPage p, .newMemChain 0 7,
    .linkAddrRng [⟨4096, 8192, false⟩] (fun a => if a = 4096 then some p else none) 0 0 4096 4096,
    .other (Function.update (fun _ => {}) p { chain := some 7, flags := (· == .referenced) }) {}]

set_option maxRecDepth 8000 in
/-- One of the pages 0 and 1 is linked. The block of the two is freed. -/
theorem oneLinked_run {p : PageRef} (hp : p = 0 ∨ p = 1) : let _ := Mlock.flag
    ∃ s s₂, System.Reachable s ∧ s.home p = some 7 ∧ s.home (1 - p) = none ∧
      s.freePagesPrepare 0 1 = .ok (s₂, true) ∧ s₂.home 1 = s.home 1 := by
  let _ := Mlock.flag
  have hs : System.Reachable ({} : Mm) :=
    .init ⟨fun _ => rfl, fun _ => rfl, fun _ => rfl, fun _ h => nomatch h⟩
  obtain ⟨s, hr, hs₁⟩ : ∃ s, System.RunBy (fun _ _ => True) {} (oneLinked p) s ∧
      s.home p = some 7 ∧ s.home (1 - p) = none ∧
        ∃ s₂, s.freePagesPrepare 0 1 = .ok (s₂, true) ∧ s₂.home 1 = s.home 1 := by
    obtain rfl | rfl := hp
    all_goals
      refine ⟨_, .cons trivial ⟨⟨rfl, by decide⟩, rfl⟩ (.cons trivial ⟨rfl, rfl⟩ (.cons trivial
        ⟨fun a p ha => ?_, rfl⟩ (.cons trivial ⟨fun p => ?_, rfl⟩ .nil))), rfl, rfl, _, rfl, rfl⟩
      · dsimp only at ha
        split_ifs at ha
        exact Option.some.inj ha ▸ rfl
      · match p with
        | 0 => exact ⟨rfl, rfl⟩
        | 1 => exact ⟨rfl, rfl⟩
        | p + 2 => exact ⟨rfl, rfl⟩
  obtain ⟨hhome, hother, s₂, heq, hhome₂⟩ := hs₁
  exact ⟨s, s₂, hr.reachable hs, hhome, hother, heq, hhome₂⟩

/-- Only the first page of the block is linked. -/
theorem detaches_iff_pair : let _ := Mlock.flag
    ∃ s s₂, s.home 0 = some 7 ∧ s.freePagesPrepare 0 1 = .ok (s₂, true) ∧
      Detaches s s₂ (block 0 1) := by
  let _ := Mlock.flag
  obtain ⟨s, s₂, hs, hhome, hother, heq, -⟩ := oneLinked_run (.inl rfl)
  refine ⟨s, s₂, hhome, heq, (detaches_iff (reachable_covers hs).1.members heq).2 fun i hi hlt => ?_⟩
  obtain rfl : i = 1 := Nat.le_antisymm (Nat.le_of_lt_succ hlt) hi
  exact hother
/-- The second page of a block of two pages is freed, and stays on its chain. -/
theorem block_stays_linked : let _ := Mlock.flag
    ∃ s s₂, System.Reachable s ∧ s.freePagesPrepare 0 1 = .ok (s₂, true) ∧
      ¬ Detaches s s₂ (block 0 1) := by
  let _ := Mlock.flag
  obtain ⟨s, s₂, hs, hhome, -, heq, hhome₂⟩ := oneLinked_run (.inr rfl)
  refine ⟨s, s₂, hs, heq, fun hd => ?_⟩
  rw [hd.home_eq 1 (mem_block.2 ⟨1, by decide, rfl⟩), hhome] at hhome₂
  cases hhome₂

end Mcpq.Kernel.Mm
