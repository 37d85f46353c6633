import Mcpq.Simulator.ChainStructure

/-!
# Effective times

The search for a page to evict samples the effective time of each chain and keeps the samples. A sample
is right as long as some page of the chain has been used since the time sampled (`Dated`): then the page
found is one of the unit, a chain or a page on no chain, of least effective time (`Dated.find`).

Pinned chains and anchored chains are left aside: no chain has an anchor (`Unpinned`).
-/

namespace Mcpq.Simulator

/-! ## Anchors -/

namespace Chain

variable {c c' : Chain} {h h' : Heap} {p : PageRef}

theorem unlink_anchor (hc : c.anchor = none) (h : Heap) (page : Option PageRef) :
    (c.unlink h page).2.anchor = none := by
  rcases page with _ | p
  · exact hc
  · obtain ⟨head, tail, hchain, -⟩ := bypass_chain c h p
    rw [unlink]
    split_ifs
    · exact hc
    · simp [hchain, hc]

theorem evict_anchor (hc : c.anchor = none) (heq : c.evict h = .ok (p, h', c')) :
    c'.anchor = none := by
  rw [evict] at heq
  obtain ⟨pages, -, heq⟩ := bind_eq_ok heq
  obtain ⟨q, -, heq⟩ := bind_eq_ok heq
  obtain rfl := congrArg (·.2.2) (Except.ok.inj heq)
  exact unlink_anchor hc _ _

theorem push_anchor (hc : c.anchor = none) (h : Heap) (p : PageRef) :
    (c.push h p).2.anchor = none := by
  rw [push_chain]
  exact hc

theorem add_anchor (hc : c.anchor = none) (heq : c.add h p = .ok (h', c')) : c'.anchor = none := by
  rw [add] at heq
  split_ifs at heq
  · obtain rfl := congrArg Prod.snd (Except.ok.inj heq)
    exact hc
  · obtain ⟨⟨v, h₁, c₁⟩, hevict, heq⟩ := bind_eq_ok heq
    obtain rfl := congrArg Prod.snd (Except.ok.inj heq)
    exact push_anchor (evict_anchor hc hevict) _ _
  · obtain rfl := congrArg Prod.snd (Except.ok.inj heq)
    exact push_anchor hc _ _

theorem unchain_anchor (heq : c.unchain h = .ok (h', c')) : c'.anchor = none := by
  rw [unchain] at heq
  obtain ⟨h₁, -, heq⟩ := bind_eq_ok heq
  obtain rfl := congrArg Prod.snd (Except.ok.inj heq)
  rfl

end Chain

namespace ChainedLeastRecentlyUsed

/-- No chain has an anchor. -/
def Unpinned (s : ChainedLeastRecentlyUsed) : Prop := ∀ id, (s.chains id).anchor = none

variable {s s' : ChainedLeastRecentlyUsed} {h h' : Heap} {id : ℤ} {c : Chain} {p : PageRef}
  {page : Option PageRef}

namespace Unpinned

theorem setChain (hs : s.Unpinned) (hc : c.anchor = none) (id : ℤ) : (s.setChain id c).Unpinned := by
  intro d
  by_cases hd : d = id
  · rw [hd, setChain_self]
    exact hc
  · rw [setChain_of_ne _ hd]
    exact hs d

theorem chainUnlink (hs : s.Unpinned) (heq : s.chainUnlink h id page = .ok (h', s')) :
    s'.Unpinned := by
  obtain ⟨d, -, heq⟩ := bind_eq_ok heq
  obtain rfl := congrArg Prod.snd (Except.ok.inj heq)
  exact hs.setChain (Chain.unlink_anchor (hs d) _ _) d

theorem chainAdd (hs : s.Unpinned) (heq : s.chainAdd h id p = .ok (h', s')) : s'.Unpinned := by
  obtain ⟨d, -, heq⟩ := bind_eq_ok heq
  obtain ⟨⟨h₁, c⟩, hadd, heq⟩ := bind_eq_ok heq
  obtain rfl := congrArg Prod.snd (Except.ok.inj heq)
  exact hs.setChain (Chain.add_anchor (hs d) hadd) d

theorem chainUnchain (hs : s.Unpinned) (heq : s.chainUnchain h id = .ok (h', s')) :
    s'.Unpinned := by
  obtain ⟨d, -, heq⟩ := bind_eq_ok heq
  obtain ⟨⟨h₁, c⟩, hunchain, heq⟩ := bind_eq_ok heq
  obtain rfl := congrArg Prod.snd (Except.ok.inj heq)
  exact hs.setChain (Chain.unchain_anchor hunchain) d

theorem leave (hs : s.Unpinned) (heq : s.leave h p id = .ok (h', s')) : s'.Unpinned := by
  rw [ChainedLeastRecentlyUsed.leave] at heq
  split_ifs at heq
  · exact hs.chainUnlink heq
  · obtain rfl := congrArg Prod.snd (Except.ok.inj heq)
    exact hs

theorem love (hs : s.Unpinned) (heq : s.love h (some p) id = .ok (h', s')) : s'.Unpinned := by
  obtain ⟨q, -, heq⟩ := bind_eq_ok heq
  obtain ⟨⟨h₁, s₁⟩, hleave, heq⟩ := bind_eq_ok heq
  exact (hs.leave hleave).chainAdd heq

/-- A page that is not pinned. -/
theorem lovePin (hs : s.Unpinned) (heq : s.lovePin h (some p) id false = .ok (h', s')) :
    s'.Unpinned := by
  obtain ⟨q, -, heq⟩ := bind_eq_ok heq
  obtain ⟨⟨h₁, s₁⟩, hleave, heq⟩ := bind_eq_ok heq
  exact (hs.leave hleave).love heq

theorem hate (hs : s.Unpinned) (heq : s.hate h (some p) = .ok (h', s')) : s'.Unpinned := by
  obtain ⟨q, -, heq⟩ := bind_eq_ok heq
  split_ifs at heq
  · exact hs.chainUnchain heq
  · obtain rfl := congrArg Prod.snd (Except.ok.inj heq)
    exact hs

theorem hateChain (hs : s.Unpinned) (heq : s.hateChain h id = .ok (h', s')) : s'.Unpinned := by
  obtain ⟨⟨h₁, s₁⟩, hunchain, heq⟩ := bind_eq_ok heq
  obtain rfl := congrArg Prod.snd (Except.ok.inj heq)
  exact fun d => hs.chainUnchain hunchain d

end Unpinned

end ChainedLeastRecentlyUsed

/-! ## Samples -/

open ChainedLeastRecentlyUsed

/-- The samples of the chains are those of a search before, and some page of each chain is as recent as
    its sample. -/
structure Dated (s : ChainedLeastRecentlyUsed) (h : Heap) : Prop where
  unpinned : s.Unpinned
  not_anchored : ∀ id, (s.chains id).anchored = false
  sample_le : ∀ id, (s.chains id).sample ≤ s.sample
  recent : ∀ p, h.link p ≠ -1 →
    ∃ q, h.link q = h.link p ∧ (s.chains (h.link p)).timestamp ≤ h.time q

/-- The effective time of the unit of a page: its own time, or the greatest time of the pages of its
    chain, where `L` are the pages of the chains. -/
def unitTime (h : Heap) (L : ℤ → List PageRef) (p : PageRef) : ℕ :=
  if h.link p = -1 then h.time p else greatest h.time (L (h.link p))

/-- What the search keeps of a page. -/
def ChainedLeastRecentlyUsed.Candidate.of (h : Heap) (L : ℤ → List PageRef) (p : PageRef) : Candidate where
  min := unitTime h L p
  id := if h.link p = -1 then none else some (h.link p)
  pg := if h.link p = -1 then some p else none

/-- The chains while the search goes on: some have been sampled. -/
structure Sampled (s : ChainedLeastRecentlyUsed) (h : Heap) (L : ℤ → List PageRef)
    (s' : ChainedLeastRecentlyUsed) : Prop where
  structured : Structured s' h L
  linkTable_eq : s'.linkTable = s.linkTable
  sample_eq : s'.sample = s.sample + 1
  chain_eq : ∀ id, s'.chains id = s.chains id ∨ (L id ≠ [] ∧
    s'.chains id = { s.chains id with timestamp := greatest h.time (L id), sample := s.sample + 1 })

variable {s s' : ChainedLeastRecentlyUsed} {h h' : Heap} {L : ℤ → List PageRef} {id : ℤ}
  {p q : PageRef} {best : Candidate}

namespace Sampled

theorem start (hs : Structured s h L) : Sampled s h L { s with sample := s.sample + 1 } :=
  ⟨{ hs with }, rfl, rfl, fun _ => .inl rfl⟩

theorem timestamp_le (hd : Dated s h) (hs : Structured s' h L) (hp : p ∈ L id) :
    (s.chains id).timestamp ≤ greatest h.time (L id) := by
  have hlink := hs.mem_iff.1 hp
  obtain ⟨q, hq, hle⟩ := hd.recent p (hlink.1 ▸ hlink.2)
  rw [hlink.1] at hq hle
  exact hle.trans (le_greatest (hs.mem_iff.2 ⟨hq, hlink.2⟩))

/-- A chain is sampled, unless it has been. -/
theorem getTimestamp (hd : Dated s h) (hs : Sampled s h L s') (hp : p ∈ L id) :
    ∃ c, (s'.chains id).getTimestamp h s'.sample = .ok (greatest h.time (L id), c) ∧
      Sampled s h L (s'.setChain id c) := by
  have hid := hs.structured.mem_table id p hp
  have hc := hs.structured.holds id hid
  rcases hs.chain_eq id with heq | ⟨hne, heq⟩
  · -- The last sample is one of a search before.
    have hsample : (s'.chains id).sample ≠ s'.sample := by
      rw [heq, hs.sample_eq]
      exact (Nat.lt_succ_of_le (hd.sample_le id)).ne
    have hfold : (L id).foldl (fun t p => max t (h.page p).time) (s'.chains id).timestamp =
        greatest h.time (L id) := by
      rw [heq]
      exact (foldl_max (L id) _).trans (max_eq_right (timestamp_le hd hs.structured hp))
    refine ⟨{ s'.chains id with timestamp := greatest h.time (L id), sample := s'.sample }, ?_,
      hs.structured.setFields hid ⟨hc.list, hc.size, hc.anchor⟩ rfl, hs.linkTable_eq, hs.sample_eq,
      fun d => ?_⟩
    · rw [Chain.getTimestamp, if_neg hsample, hc.list.walk_eq hs.structured.length_le]
      simp only [ok_bind, hfold, pure_eq_ok]
    · by_cases hdid : d = id
      · rw [hdid, setChain_self, heq, hs.sample_eq]
        exact .inr ⟨List.ne_nil_of_mem hp, rfl⟩
      · rw [setChain_of_ne _ hdid]
        exact hs.chain_eq d
  · refine ⟨s'.chains id, ?_, ?_⟩
    · rw [Chain.getTimestamp, if_pos (by rw [heq, hs.sample_eq]), heq]
    · rw [ChainedLeastRecentlyUsed.setChain, Function.update_eq_self]
      exact hs

/-- The page takes the place of the candidate only if its unit is as old, and leaves it only if its
    unit is as recent. -/
theorem consider (hd : Dated s h) (hs : Sampled s h L s') (p : PageRef) (best : Candidate) :
    ∃ s₁ best', ChainedLeastRecentlyUsed.consider h (s', best) (some p) = .ok (s₁, best') ∧
      Sampled s h L s₁ ∧ (best' = .of h L p ∧ unitTime h L p ≤ best.min ∨
        best' = best ∧ best.min ≤ unitTime h L p) := by
  rw [ChainedLeastRecentlyUsed.consider, Candidate.of, unitTime]
  by_cases hlink : h.link p = -1
  · have hlink' : (h.page p).link = -1 := hlink
    simp only [deref_some, ok_bind, hlink, hlink', if_true]
    rw [if_neg (by decide)]
    by_cases hle : (h.page p).time ≤ best.min
    · rw [if_pos ⟨trivial, hle⟩]
      exact ⟨s', _, rfl, hs, .inl ⟨rfl, hle⟩⟩
    · rw [if_neg fun hand => hle hand.2]
      exact ⟨s', best, rfl, hs, .inr ⟨rfl, (not_le.1 hle).le⟩⟩
  · have hp : p ∈ L (h.link p) := hs.structured.mem_iff.2 ⟨rfl, hlink⟩
    have hid := hs.structured.link_mem_table hlink
    obtain ⟨c, hget, hs₁⟩ := hs.getTimestamp hd hp
    have hpos : (h.page p).link ≥ 0 := (hs.structured.range _ hid).1
    have hchain : s'.chain (h.page p).link = .ok (h.link p) := Structured.chain_eq hid
    simp only [deref_some, ok_bind, if_pos hpos, hchain, hget, if_neg hlink]
    split_ifs with hlt
    · exact ⟨_, _, rfl, hs₁, .inl ⟨rfl, hlt.le⟩⟩
    · exact ⟨_, _, rfl, hs₁, .inr ⟨rfl, not_lt.1 hlt⟩⟩

/-- The search over some pages ends with the candidate of one whose unit is the oldest. -/
theorem foldlM_consider (hd : Dated s h) (hs : Structured s h L) {pages : List PageRef}
    (hne : pages ≠ []) (ht : ∀ q ∈ pages, unitTime h L q ≤ h.clock.current) :
    ∃ s₁, ∃ p ∈ pages, (pages.map some).foldlM (ChainedLeastRecentlyUsed.consider h)
        ({ s with sample := s.sample + 1 }, { min := h.clock.current + 1 }) =
          .ok (s₁, .of h L p) ∧ Sampled s h L s₁ ∧ ∀ q ∈ pages, unitTime h L p ≤ unitTime h L q := by
  have hmem : ∀ q, some q ∈ pages.map some ↔ q ∈ pages := fun q =>
    List.mem_map_of_injective (Option.some_injective _)
  -- The candidate is no page yet, or one of the pages done.
  let I (done : List (Option PageRef)) (b : ChainedLeastRecentlyUsed × Candidate) : Prop :=
    Sampled s h L b.1 ∧ (∀ q, some q ∈ done → b.2.min ≤ unitTime h L q) ∧
      (done = [] ∧ b.2.min = h.clock.current + 1 ∨ ∃ p, some p ∈ done ∧ b.2 = .of h L p)
  have hstep : ∀ done a rest, pages.map some = done ++ a :: rest → ∀ b, I done b →
      ∃ b', ChainedLeastRecentlyUsed.consider h b a = .ok b' ∧ I (done ++ [a]) b' := by
    rintro done a rest hl ⟨s₁, best⟩ ⟨hs₁, hle, hbest⟩
    obtain ⟨q, hq, rfl⟩ : ∃ q ∈ pages, some q = a := List.mem_map.1 (hl ▸ by simp)
    have hdone : ∀ r, some r ∈ done ++ [some q] → some r ∈ done ∨ r = q := fun r hr => by
      simpa using hr
    obtain ⟨s₂, best', heq, hs₂, hkeep⟩ := hs₁.consider hd q best
    rcases hkeep with ⟨rfl, hmin⟩ | ⟨rfl, hmin⟩
    · -- The page takes the place of the candidate.
      refine ⟨(s₂, _), heq, hs₂, fun r hr => ?_, .inr ⟨q, by simp, rfl⟩⟩
      rcases hdone r hr with hr | rfl
      · exact hmin.trans (hle r hr)
      · exact le_rfl
    · refine ⟨(s₂, best'), heq, hs₂, fun r hr => ?_, .inr ?_⟩
      · rcases hdone r hr with hr | rfl
        · exact hle r hr
        · exact hmin
      · -- The first page is kept.
        rcases hbest with ⟨-, hstart⟩ | ⟨p, hp, hbest⟩
        · exact absurd (hstart.ge.trans hmin) (not_le.2 (Nat.lt_succ_of_le (ht q hq)))
        · exact ⟨p, List.mem_append_left _ hp, hbest⟩
  obtain ⟨⟨s₁, best⟩, hfold, hs₁, hle, hbest⟩ := foldlM_ok I hstep
    (b := ({ s with sample := s.sample + 1 }, { min := h.clock.current + 1 }))
    ⟨.start hs, fun q hq => absurd hq List.not_mem_nil, .inl ⟨rfl, rfl⟩⟩
  rcases hbest with ⟨hnil, -⟩ | ⟨p, hp, rfl⟩
  · exact absurd (List.map_eq_nil_iff.1 hnil) hne
  · exact ⟨s₁, p, (hmem p).1 hp, hfold, hs₁, fun q hq => hle q ((hmem q).2 hq)⟩

end Sampled

namespace Dated

/-- The samples are right after a search, before its page is evicted. -/
theorem sampled (hd : Dated s h) (hs : Sampled s h L s') : Dated s' h where
  unpinned id := by
    rcases hs.chain_eq id with heq | ⟨-, heq⟩
    all_goals exact heq ▸ hd.unpinned id
  not_anchored id := by
    rcases hs.chain_eq id with heq | ⟨-, heq⟩
    all_goals exact heq ▸ hd.not_anchored id
  sample_le id := by
    rw [hs.sample_eq]
    rcases hs.chain_eq id with heq | ⟨-, heq⟩
    · exact heq ▸ (hd.sample_le id).trans (Nat.le_succ _)
    · exact heq ▸ le_rfl
  recent p hp := by
    rcases hs.chain_eq (h.link p) with heq | ⟨hne, heq⟩
    · exact heq ▸ hd.recent p hp
    · obtain ⟨q, hq, hle⟩ := exists_greatest h.time hne
      refine ⟨q, hs.structured.link_of_mem hq, ?_⟩
      rw [heq]
      exact hle.ge

/-- The least recently used page of a chain leaves it: the others are as recent. -/
theorem evict (hd : Dated s h) (hs : Structured s h L) (hid : id ∈ s.linkTable) (hne : L id ≠ [])
    (ht : ∀ q ∈ L id, h.time q ≤ h.clock.current) :
    ∃ v ∈ L id, ∃ h' c, (s.chains id).evict h = .ok (v, h', c) ∧ Dated (s.setChain id c) h' ∧
      h'.link v = -1 ∧ (∀ q, h'.time q = h.time q) ∧ h'.clock = h.clock := by
  have hc := hs.holds id hid
  have hlinked : ∀ q ∈ L id, h.link q ≠ -1 := fun q hq =>
    (hs.link_of_mem hq).trans_ne (hs.ne_of_mem_table hid)
  obtain ⟨v, hv, h', head, tail, heq, hold, -, hw, hpage⟩ := Chain.evictLeast_spec hc hs.length_le
    hne (hd.not_anchored id) (hd.unpinned id) hlinked fun q hq => (ht q hq).trans (Nat.le_succ _)
  have hlink : ∀ q, q ≠ v → h'.link q = h.link q := fun q hq =>
    (congrArg MemoryPage.link (hw.detach_eq q hq) :)
  have htime : ∀ q, h'.time q = h.time q := fun q => by
    by_cases hq : q = v
    · rw [hq, Heap.time, hpage, Heap.time]
    · exact (congrArg MemoryPage.time (hw.detach_eq q hq) :)
  have hself : h'.link v = -1 := by rw [Heap.link, hpage]
  have hfixed := s.setChain_fixed id
    (c := { s.chains id with head, tail, size := (s.chains id).size - 1 }) rfl
  refine ⟨v, hv, h', _, heq, ⟨hd.unpinned.setChain (by exact hd.unpinned id) id, fun d => ?_,
    fun d => ?_, fun r hr => ?_⟩, hself, htime, hw.clock_eq⟩
  · exact (congrArg (·.2.1) (hfixed d)).trans (hd.not_anchored d)
  · exact (congrArg (·.2.2.2) (hfixed d)).trans_le (hd.sample_le d)
  · have hrv : r ≠ v := by
      rintro rfl
      exact hr hself
    rw [hlink r hrv] at hr ⊢
    rw [show ((s.setChain id _).chains (h.link r)).timestamp = _ from congrArg (·.2.2.1) (hfixed _)]
    obtain ⟨q, hq, hle⟩ := hd.recent r hr
    rcases eq_or_ne q v with rfl | hqv
    · -- The page that is evicted is no more recent than this one.
      have hrid : h.link r = id := hq.symm.trans (hs.link_of_mem hv)
      refine ⟨r, hlink r hrv, ?_⟩
      rw [htime]
      exact hle.trans (hold r (hs.mem_iff.2 ⟨hrid, hrid ▸ hr⟩))
    · exact ⟨q, (hlink q hqv).trans hq, (htime q).symm ▸ hle⟩

/-- A search of a full memory finds a page of the oldest unit. -/
theorem find (hd : Dated s h) (hs : Structured s h L) {pages : List PageRef} (hne : pages ≠ [])
    (hres : ∀ q, h.link q ≠ -1 → q ∈ pages) (ht : ∀ q ∈ pages, h.time q ≤ h.clock.current) :
    ∃ p ∈ pages, ∃ h' s', s.findPageToEvict h (pages.map some) = .ok (some p, h', s') ∧
      Dated s' h' ∧ (∀ q, h'.time q = h.time q) ∧ h'.clock = h.clock ∧
      ∀ q ∈ pages, unitTime h L p ≤ unitTime h L q := by
  have hmem : ∀ {id p}, p ∈ L id → p ∈ pages := fun hp =>
    hres _ fun hq => (hs.mem_iff.1 hp).2 ((hs.link_of_mem hp).symm.trans hq)
  obtain ⟨s₁, p, hp, hfold, hs₁, hle⟩ := Sampled.foldlM_consider hd hs hne fun q hq => by
    rw [unitTime]
    split_ifs
    · exact ht q hq
    · exact greatest_le fun r hr => ht r (hmem hr)
  have hd₁ := hd.sampled hs₁
  rw [findPageToEvict, hfold]
  by_cases hlink : h.link p = -1
  · simp only [ok_bind, Candidate.of, if_pos hlink]
    exact ⟨p, hp, h, s₁, rfl, hd₁, fun _ => rfl, rfl, hle⟩
  · have hpl : p ∈ L (h.link p) := hs.mem_iff.2 ⟨rfl, hlink⟩
    have hid := hs₁.structured.link_mem_table hlink
    obtain ⟨v, hv, h', c, heq, hd₂, hself, htime, hclock⟩ := hd₁.evict hs₁.structured hid
      (List.ne_nil_of_mem hpl) fun q hq => ht q (hmem hq)
    -- The link of the page is set to what it is.
    have hset : h'.setLink v (-1) = h' := by
      have hv' : ({ h'.page v with link := -1 } : MemoryPage) = h'.page v := by
        rw [← show h'.link v = -1 from hself]
        rfl
      rw [Heap.setLink, Heap.modify, hv', Function.update_eq_self]
    simp only [ok_bind, Candidate.of, if_neg hlink, Structured.chain_eq hid, heq, hset, pure_eq_ok]
    refine ⟨v, hmem hv, h', _, rfl, hd₂, htime, hclock, fun q hq => ?_⟩
    -- The page evicted is of the same unit.
    rw [unitTime, hs.link_of_mem hv, if_neg hlink]
    have hlep := hle q hq
    rwa [unitTime, if_neg hlink] at hlep

end Dated

end Mcpq.Simulator
