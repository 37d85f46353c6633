import Mcpq.Hierarchical.Places

/-!
# Local evictions

What `evict` does to a well-formed chain (`Sound`). The method is to evict a page other than the anchor, or
the anchor if there is no other page. It does (`EvictsOne`) exactly when the local policy, which has the
last word, does not name the anchor of a chain with other pages, nor leaves out the only page of the chain
(`SparesAnchor`): `evictsOne_iff`.
-/

namespace Mcpq.Hierarchical

namespace MemoryChain

/-- A well-formed chain: it holds the pages `l`, which exist and reside on it. -/
structure Sound (c : MemoryChain) (h : Heap) (l : List PageRef) : Prop where
  holds : Holds c h l
  id_ne : c.id ≠ -1
  resides_eq : ∀ q ∈ l, (h.page q).resides = c.id
  lt_fresh : ∀ q ∈ l, q < h.fresh

/-- One page is removed from the chain, and it is the anchor only if there is no other. -/
def EvictsOne (c : MemoryChain) (h : Heap) (l : List PageRef) : Prop :=
  ∃ p ∈ l, ∃ h' c', c.evict h = .ok (p, h', c') ∧ c'.Sound h' (l.erase p) ∧
    (h'.page p).resides = -1 ∧ h'.next p = none ∧ h'.prev p = none ∧ (c.anchor = some p → l = [p])

/-- The policies LRU and MRU find no page if the only one is the anchor. The policies FIFO and Random may
    name the anchor of a chain with other pages: its tail, or the page drawn. -/
def SparesAnchor (c : MemoryChain) (h : Heap) (l : List PageRef) : Prop :=
  ∀ a, c.anchor = some a →
    match c.policy with
    | .lru => l ≠ [a]
    | .mru => l ≠ [a]
    | .fifo => c.tail = some a → l = [a]
    | .random => l[h.draws 0 % l.length]? = some a → l = [a]

variable {c : MemoryChain} {h h₁ : Heap} {l : List PageRef} {p : PageRef}

theorem Sound.length_le (hc : c.Sound h l) : l.length ≤ h.fresh := hc.holds.length_le hc.lt_fresh

/-- Only the timestamps of pages are written. -/
theorem Sound.congr {h' : Heap} (hc : c.Sound h l) (hn : ∀ q, h'.next q = h.next q)
    (hp : ∀ q, h'.prev q = h.prev q) (hr : ∀ q, (h'.page q).resides = (h.page q).resides)
    (hf : h'.fresh = h.fresh) : c.Sound h' l where
  holds := ⟨hc.holds.list.congr (fun q _ => hn q) fun q _ => hp q, hc.holds.size, hc.holds.anchor⟩
  id_ne := hc.id_ne
  resides_eq q hq := (hr q).trans (hc.resides_eq q hq)
  lt_fresh q hq := hf ▸ hc.lt_fresh q hq

/-- The chains of a manager are well-formed. -/
theorem Sound.of_chainsOk {s : HierarchicalMemoryManager} {L : ℤ → List PageRef} {id : ℤ}
    (hs : s.ChainsOk L) (hid : id ≠ -1) : (s.chains id).Sound s.heap (L id) where
  holds := hs.holds id
  id_ne := (hs.id_eq id).symm ▸ hid
  resides_eq q hq := ((hs.mem_iff id q).1 hq).1.trans (hs.id_eq id).symm
  lt_fresh _ hq := hs.mem_lt_fresh hq

/-! ## The page removed -/

section timestamps

variable (h) (f : ℕ)

theorem setTimestamp_links (r q : PageRef) :
    (h.modify r ({ · with timestamp := f })).next q = h.next q ∧
      (h.modify r ({ · with timestamp := f })).prev q = h.prev q ∧
      ((h.modify r ({ · with timestamp := f })).page q).resides = (h.page q).resides := by
  simp only [Heap.next, Heap.prev, Heap.modify_page]
  split_ifs with hq
  · rw [hq]
    exact ⟨rfl, rfl, rfl⟩
  · exact ⟨rfl, rfl, rfl⟩

end timestamps

theorem touchAnchor_sound (hc : c.Sound h l) : c.Sound (c.touchAnchor h) l := by
  rw [touchAnchor]
  split
  · exact hc.congr (fun q => (setTimestamp_links h _ _ q).1) (fun q => (setTimestamp_links h _ _ q).2.1)
      (fun q => (setTimestamp_links h _ _ q).2.2) rfl
  · exact hc

/-- The page chosen is removed from the chain. -/
theorem evict_of_choose (hc : c.Sound h l) (hch : c.choose h = .ok (some p, h₁)) (hpage : h₁.page = h.page)
    (hfresh : h₁.fresh = h.fresh) (hp : p ∈ l) :
    ∃ h' c', c.evict h = .ok (p, h', c') ∧ c'.Sound h' (l.erase p) ∧
      (h'.page p).resides = -1 ∧ h'.next p = none ∧ h'.prev p = none := by
  have hc₁ : c.Sound h₁ l := by
    refine hc.congr (fun q => ?_) (fun q => ?_) (fun q => ?_) hfresh
    · rw [Heap.next, hpage, Heap.next]
    · rw [Heap.prev, hpage, Heap.prev]
    · rw [hpage]
  have hc₂ := touchAnchor_sound hc₁
  obtain ⟨h₂, head, tail, heq, hholds, hw, -, hself⟩ := unlink_spec hc₂.holds hp
    (hc₂.resides_eq p hp ▸ hc.id_ne)
  have hlinks := setTimestamp_links h₂ (h.clock.current + 1) p
  rw [heq] at hholds
  refine ⟨h₂.modify p ({ · with timestamp := h.clock.current + 1 }), _, ?_, Sound.congr (h := h₂)
    ⟨hholds, hc.id_ne, fun q hq => ?_, fun q hq => ?_⟩ (fun q => (hlinks q).1) (fun q => (hlinks q).2.1)
    (fun q => (hlinks q).2.2) rfl, (hlinks p).2.2.trans ?_, (hlinks p).1.trans ?_,
    (hlinks p).2.1.trans ?_⟩
  · rw [evict, hch]
    simp only [ok_bind, heq, deref_some, pure_eq_ok]
  · have hqp : q ≠ p := fun hqp => hc.holds.list.nodup.not_mem_erase (hqp ▸ hq)
    exact (congrArg Page.resides (hw.detach_eq q hqp) :).trans
      (hc₂.resides_eq q (List.mem_of_mem_erase hq))
  · rw [hw.fresh_eq]
    exact hc₂.lt_fresh q (List.mem_of_mem_erase hq)
  · rw [hself]
  · rw [Heap.next, hself]
  · rw [Heap.prev, hself]

theorem evict_of_choose_none (hch : c.choose h = .ok (none, h₁)) :
    c.evict h = .error .nullPointer := by
  rw [evict, hch]
  rfl

/-! ## The page chosen -/

/-- A page other than the anchor is found, or the anchor is the only page. -/
theorem Sound.others_cases (hc : c.Sound h l) (hne : l ≠ []) {le : ℕ → ℕ → Prop} {r : Option PageRef}
    (hr : Best h.timestamp le (c.others l) r) :
    (∃ p ∈ l, r = some p ∧ c.anchor ≠ some p) ∨ r = none ∧ ∃ a, c.anchor = some a ∧ l = [a] := by
  cases r with
  | some p =>
    obtain ⟨hp, hpa⟩ := mem_others.1 (hr.2 p rfl).1
    exact .inl ⟨p, hp, rfl, hpa⟩
  | none =>
    have hnil : c.others l = [] := hr.1.1 rfl
    have hall : ∀ q ∈ l, c.anchor = some q := fun q hq =>
      by_contra fun hq' => List.ne_nil_of_mem (mem_others.2 ⟨hq, hq'⟩) hnil
    exact .inr ⟨rfl, hc.holds.list.eq_singleton hne hall⟩

/-- The page after some links of a list. -/
theorem skip_eq {pr : Option PageRef} (hs : Segment h.next h.prev pr l none) {n : ℕ} (hn : n ≤ l.length) :
    skip h n l.head? = .ok l[n]? := by
  induction n generalizing l pr with
  | zero => rw [skip, List.head?_eq_getElem?]
  | succ n ih =>
    obtain _ | ⟨a, l⟩ := l
    · exact absurd hn (Nat.not_succ_le_zero n)
    · obtain ⟨-, hnext, hs⟩ := hs
      rw [Option.or_none] at hnext
      rw [skip, List.head?_cons, deref_some]
      simp only [ok_bind]
      rw [hnext, ih hs (Nat.le_of_succ_le_succ hn), List.getElem?_cons_succ]

theorem randomPage_spec (hc : c.Sound h l) (hne : l ≠ []) :
    ∃ p ∈ l, l[h.draws 0 % l.length]? = some p ∧
      c.randomPage h = .ok (some p, { h with draws := fun i => h.draws (i + 1) }) := by
  have hpos := List.length_pos_iff.2 hne
  have hlt := Nat.mod_lt (h.draws 0) hpos
  have hget := List.getElem?_eq_getElem hlt
  refine ⟨_, List.getElem_mem hlt, hget, ?_⟩
  have hskip : skip { h with draws := fun i => h.draws (i + 1) } (h.draws 0 % l.length) l.head? =
      .ok l[h.draws 0 % l.length]? :=
    skip_eq (h := { h with draws := fun i => h.draws (i + 1) }) hc.holds.list.segment hlt.le
  rw [randomPage, Heap.nextInt, hc.holds.size, if_pos (Int.natCast_pos.2 hpos), Int.toNat_natCast,
    hc.holds.list.head_eq]
  simp only [ok_bind]
  rw [hskip, hget]
  rfl

/-- The local policy chooses a page of the chain, or none. The page is as it should be exactly if the
    policy spares the anchor. -/
theorem choose_spec (hc : c.Sound h l) (hne : l ≠ [])
    (ht : ∀ q ∈ l, (h.page q).timestamp ≤ h.clock.current) :
    ∃ r h₁, c.choose h = .ok (r, h₁) ∧ h₁.page = h.page ∧ h₁.fresh = h.fresh ∧
      (∀ p, r = some p → p ∈ l) ∧
      (c.SparesAnchor h l ↔ ∃ p, r = some p ∧ (c.anchor = some p → l = [p])) := by
  -- The policies that look for a page other than the anchor.
  have hscan : ∀ r : Option PageRef, ((∃ p ∈ l, r = some p ∧ c.anchor ≠ some p) ∨
      r = none ∧ ∃ a, c.anchor = some a ∧ l = [a]) → (∀ p, r = some p → p ∈ l) ∧
      ((∀ a, c.anchor = some a → l ≠ [a]) ↔ ∃ p, r = some p ∧ (c.anchor = some p → l = [p])) := by
    rintro r (⟨p, hp, rfl, hpa⟩ | ⟨rfl, a, ha, rfl⟩)
    · refine ⟨fun q hq => Option.some.inj hq ▸ hp, fun _ => ⟨p, rfl, fun h' => absurd h' hpa⟩, ?_⟩
      rintro - a ha rfl
      exact hpa (List.mem_singleton.1 hp ▸ ha)
    · exact ⟨fun p hp => absurd hp (by simp), fun h' => absurd rfl (h' a ha),
        fun ⟨p, hp, _⟩ => absurd hp (by simp)⟩
  rw [choose]
  unfold SparesAnchor
  cases c.policy with
  | lru =>
    obtain ⟨r, heq, hr⟩ := leastRecentlyUsed_best hc.holds hc.length_le ht
    refine ⟨r, h, ?_, rfl, rfl, hscan r (hc.others_cases hne hr)⟩
    simp only [heq, ok_bind, pure_eq_ok]
  | mru =>
    obtain ⟨r, heq, hr⟩ := mostRecentlyUsed_best hc.holds hc.length_le
    refine ⟨r, h, ?_, rfl, rfl, hscan r (hc.others_cases hne hr)⟩
    simp only [heq, ok_bind, pure_eq_ok]
  | fifo =>
    have htail : c.tail = some (l.getLast hne) := by
      rw [hc.holds.list.tail_eq hne, List.getLast?_eq_some_getLast hne]
    refine ⟨c.tail, h, rfl, rfl, rfl, fun p hp => ?_, fun hs => ⟨_, htail, fun ha => hs _ ha htail⟩, ?_⟩
    · exact Option.some.inj (htail.symm.trans hp) ▸ List.getLast_mem hne
    · rintro ⟨p, hp, hpl⟩ a ha hta
      obtain rfl := Option.some.inj (hp.symm.trans hta)
      exact hpl ha
  | random =>
    obtain ⟨p, hp, hget, heq⟩ := randomPage_spec hc hne
    refine ⟨some p, _, heq, rfl, rfl, fun q hq => Option.some.inj hq ▸ hp,
      fun hs => ⟨p, rfl, fun ha => hs p ha hget⟩, ?_⟩
    rintro ⟨q, hq, hql⟩ a ha hda
    obtain rfl := Option.some.inj hq
    obtain rfl := Option.some.inj (hget.symm.trans hda)
    exact hql ha

end MemoryChain

/-- An eviction from a well-formed chain removes one page, which is not the anchor of a chain with other
    pages, if and only if the local policy of the chain spares its anchor. -/
theorem evictsOne_iff {c : MemoryChain} {h : Heap} {l : List PageRef} (hc : c.Sound h l) (hne : l ≠ [])
    (ht : ∀ q ∈ l, (h.page q).timestamp ≤ h.clock.current) :
    c.EvictsOne h l ↔ c.SparesAnchor h l := by
  obtain ⟨r, h₁, hch, hpage, hfresh, hmem, hspares⟩ := MemoryChain.choose_spec hc hne ht
  rw [hspares]
  cases r with
  | none =>
    refine ⟨fun ⟨p, _, h', c', heq, _⟩ => ?_, fun ⟨p, hp, _⟩ => nomatch hp⟩
    rw [MemoryChain.evict_of_choose_none hch] at heq
    cases heq
  | some p =>
    have hp := hmem p rfl
    obtain ⟨h', c', heq, hc', hlinks⟩ := MemoryChain.evict_of_choose hc hch hpage hfresh hp
    constructor
    · rintro ⟨q, -, h'', c'', heq', -, -, -, -, hq⟩
      rw [heq] at heq'
      cases heq'
      exact ⟨p, rfl, hq⟩
    · rintro ⟨q, hq, hql⟩
      obtain rfl := Option.some.inj hq
      exact ⟨p, hp, h', c', heq, hc', hlinks.1, hlinks.2.1, hlinks.2.2, hql⟩

/-- The chains of a manager are well-formed, with timestamps of the past. -/
theorem reachable_sound {n : ℕ} {s : HierarchicalMemoryManager} (hs : (FullSystem n).Reachable s) {id : ℤ}
    (hid : id ≠ -1) : ∃ l, (s.chains id).Sound s.heap l ∧
      ∀ q ∈ l, (s.heap.page q).timestamp ≤ s.heap.clock.current := by
  obtain ⟨⟨t, L, V, rfl, h, -⟩, -⟩ := reachable_kept hs
  exact ⟨L id, MemoryChain.Sound.of_chainsOk (s := t) h.rep.chains hid, fun q hq =>
    h.rep.store.stamp_le q (h.rep.lt_fresh hq)⟩

/-- A chain of two pages, the first of which to be linked is the anchor. -/
def anchoredPair (policy : EvictionPolicy) : MemoryChain where
  id := 3
  size := 2
  anchor := some 1
  head := some 2
  tail := some 1
  policy

/-- A heap with two pages on a chain, the older one at its tail. -/
def anchoredPairHeap : Heap where
  page r := if r = 1 then { resides := 3, prev := some 2, timestamp := 1 }
    else if r = 2 then { resides := 3, next := some 1, timestamp := 2 } else {}
  fresh := 3
  clock := ⟨2⟩

theorem anchoredPair_sound (policy : EvictionPolicy) :
    (anchoredPair policy).Sound anchoredPairHeap [2, 1] where
  holds := ⟨⟨by decide, ⟨rfl, rfl, rfl, rfl, trivial⟩, rfl, fun _ => rfl⟩, rfl, fun a ha => by
    obtain rfl := Option.some.inj ha
    decide⟩
  id_ne := show (3 : ℤ) ≠ -1 by decide
  resides_eq := show ∀ q ∈ [2, 1], (anchoredPairHeap.page q).resides = 3 by decide
  lt_fresh := by decide

/-- The page that is not the anchor is evicted, although the anchor is the least recently used one. -/
theorem evictsOne_iff_lru : (anchoredPair .lru).EvictsOne anchoredPairHeap [2, 1] := by
  refine (evictsOne_iff (anchoredPair_sound .lru) (by decide) (by decide)).2 fun a ha => ?_
  obtain rfl := Option.some.inj ha
  exact fun h => nomatch h

/-- The anchor is evicted, although there is another page. -/
theorem anchor_evicted_locally : ∃ (c : MemoryChain) (h : Heap) (l : List PageRef), c.Sound h l ∧ l ≠ [] ∧
    (∀ q ∈ l, (h.page q).timestamp ≤ h.clock.current) ∧ ¬c.EvictsOne h l := by
  refine ⟨_, _, [2, 1], anchoredPair_sound .fifo, by decide, by decide, ?_⟩
  rintro ⟨p, -, h', c', heq, -, -, -, -, hp⟩
  have hevict : ((anchoredPair .fifo).evict anchoredPairHeap).map (·.1) = .ok 1 := rfl
  rw [heq] at hevict
  obtain rfl : p = 1 := Except.ok.inj hevict
  exact nomatch hp rfl

end Mcpq.Hierarchical
