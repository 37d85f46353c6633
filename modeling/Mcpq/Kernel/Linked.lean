import Mcpq.Kernel.Mchain
import Mcpq.Lib.Members

/-!
# Linked pages

The structure of the memory chains (`Linked`): a chain lists the pages that point to it, and counts
them; its anchor and its delegate are among them; a page that is with the page allocator points to no
chain.

The counter of the references of a chain may exceed the number of its pages that are referenced
(`excess`). Each function of `mchain.c`, `page-flags.h` and `swap.c` keeps the structure, and what it
does to the excess of each chain is stated with it (`setPageReferenced_spec`,
`markPageAccessed_spec`, `unlinkPage_spec`, `linkPage_spec`, `unlinkChain_spec`).
-/

namespace Mcpq.Kernel

/-- A chain without attributes that counts its pages. -/
structure MemoryChain.Ok (m : MemoryChain) : Prop where
  attributes_eq : m.attributes = none
  nrLinks_eq : m.nrLinks = m.links.length
  anchor_mem : ∀ p, m.anchor = some p → p ∈ m.links
  delegate_mem : ∀ p, m.delegate = some p → p ∈ m.links

/-- The table of a chain never fills up. -/
theorem MemoryChain.Ok.isFull_eq {m : MemoryChain} (h : m.Ok) : m.isFull = false := by
  rw [isFull, h.attributes_eq]

/-- The shape of a chain is about its pages, its attributes, its anchor and its delegate. -/
theorem MemoryChain.Ok.of_links {m m' : MemoryChain} (h : m.Ok) (hl : m'.links = m.links)
    (ha : m'.attributes = m.attributes) (hn : m'.nrLinks = m.nrLinks)
    (hanchor : m'.anchor = m.anchor) (hdelegate : ∀ p, m'.delegate = some p → p ∈ m.links) : m'.Ok where
  attributes_eq := ha.trans h.attributes_eq
  nrLinks_eq := by rw [hn, hl, h.nrLinks_eq]
  anchor_mem p hp := hl ▸ h.anchor_mem p (hanchor ▸ hp)
  delegate_mem p hp := hl ▸ hdelegate p hp

namespace Mm

variable {s s' : Mm} {p q : PageRef} {c d : ChainRef} {m m' : MemoryChain}

/-- The chain a page points to. -/
def home (s : Mm) (p : PageRef) : Option ChainRef := (s.page p).chain

/-- The bit `PG_referenced` of a page. -/
def bit (s : Mm) (p : PageRef) : Bool := (s.page p).referenced

/-- The pages on the list of a chain. -/
def links (s : Mm) (c : ChainRef) : List PageRef := (s.chain c).elim [] MemoryChain.links

/-- The number of the pages of a chain that are referenced. -/
def refs (s : Mm) (c : ChainRef) : ℕ := (s.links c).countP s.bit

/-- By how much the counter of a chain exceeds the number of its pages that are referenced. -/
def excess (s : Mm) (c : ChainRef) : ℤ := (s.chain c).elim 0 fun m => m.refCounter - s.refs c

/-- What has been added to the counter of a chain. -/
def count (s : Mm) (c : ChainRef) : ℤ := (s.chain c).elim 0 MemoryChain.refCounter

/-- The structure of the memory chains. -/
structure Linked (s : Mm) : Prop where
  members : Members s.home s.links
  chain : ∀ c m, s.chain c = some m → m.Ok
  free : ∀ p, s.allocated p = false → s.home p = none
  few : ∀ p, s.allocated p = true → p < maxPages

/-- The pages of a chain that is in use. -/
theorem links_of_chain (h : s.chain c = some m) : s.links c = m.links := by
  rw [links, h]
  rfl

/-- What its counter has too much. -/
theorem excess_of_chain (h : s.chain c = some m) : s.excess c = m.refCounter - s.refs c := by
  rw [excess, h]
  rfl

/-- A chain that is not in use has no counter. -/
theorem excess_of_free (h : s.chain c = none) : s.excess c = 0 := by
  rw [excess, h]
  rfl

/-- The counter of a chain that is in use. -/
theorem count_of_chain (h : s.chain c = some m) : s.count c = m.refCounter := by
  rw [count, h]
  rfl

/-- The counters are fields of the chains. -/
theorem count_congr (h : s'.chain = s.chain) (c : ChainRef) : s'.count c = s.count c := by
  rw [count, count, h]

/-- A counter is the number of referenced pages and what it has too much. -/
theorem count_eq (s : Mm) (c : ChainRef) : s.count c = s.excess c + s.refs c := by
  rw [count, excess, refs, links]
  cases s.chain c with
  | none => rfl
  | some m => exact (sub_add_cancel ..).symm

/-- No more pages are referenced than there are. -/
theorem refs_le_length (s : Mm) (c : ChainRef) : s.refs c ≤ (s.links c).length :=
  List.countP_le_length

/-- A page points to a chain that is allocated, and is on its list. -/
theorem live_of_home (h : Members s.home s.links) (hp : s.home p = some c) :
    ∃ m, s.chain c = some m ∧ p ∈ m.links := by
  have hmem := (h.mem_iff p c).2 hp
  rw [links] at hmem
  cases hm : s.chain c with
  | none =>
    rw [hm] at hmem
    exact absurd hmem List.not_mem_nil
  | some m =>
    rw [hm] at hmem
    exact ⟨m, rfl, hmem⟩

/-- A page is linked to a chain that is in use, and is in its table. -/
theorem Linked.live (h : s.Linked) (hp : s.home p = some c) :
    ∃ m, s.chain c = some m ∧ p ∈ m.links :=
  live_of_home h.members hp

/-- A chain has no more pages than there are. -/
theorem Linked.length_le (h : s.Linked) (c : ChainRef) : (s.links c).length ≤ maxPages := by
  have hsub : (s.links c).toFinset ⊆ Finset.range maxPages := fun p hp => by
    have hhome := (h.members.mem_iff p c).1 (List.mem_toFinset.1 hp)
    refine Finset.mem_range.2 (h.few p ?_)
    by_contra halloc
    rw [h.free p (Bool.eq_false_of_not_eq_true halloc)] at hhome
    cases hhome
  calc (s.links c).length = (s.links c).toFinset.card :=
        (List.toFinset_card_of_nodup (h.members.nodup c)).symm
    _ ≤ (Finset.range maxPages).card := Finset.card_le_card hsub
    _ = maxPages := Finset.card_range _

/-- The number depends on the bits of the pages of the chain only. -/
theorem refs_congr (hl : s'.links c = s.links c) (hb : ∀ p ∈ s.links c, s'.bit p = s.bit p) :
    s'.refs c = s.refs c := by
  rw [refs, refs, hl]
  exact List.countP_congr fun p hp => by rw [hb p hp]

/-- So does what the counter has too much. -/
theorem excess_congr (hc : s'.chain c = s.chain c) (hb : ∀ p ∈ s.links c, s'.bit p = s.bit p) :
    s'.excess c = s.excess c := by
  have hl : s'.links c = s.links c := by rw [links, links, hc]
  rw [excess, excess, hc, refs_congr hl hb]

/-! ## Primitive updates -/

/-- One page is changed. -/
theorem home_of_page {x : Page} (h : s'.page = Function.update s.page p x) :
    s'.home = Function.update s.home p x.chain := by
  funext q
  rw [home, h]
  by_cases hq : q = p
  · rw [hq, Function.update_self, Function.update_self]
  · rw [Function.update_of_ne hq, Function.update_of_ne hq, home]

/-- One page is changed. -/
theorem bit_of_page {x : Page} (h : s'.page = Function.update s.page p x) :
    s'.bit = Function.update s.bit p x.referenced := by
  funext q
  rw [bit, h]
  by_cases hq : q = p
  · rw [hq, Function.update_self, Function.update_self]
  · rw [Function.update_of_ne hq, Function.update_of_ne hq, bit]

/-- One chain is changed. -/
theorem links_setChain (s : Mm) (c : ChainRef) (m : Option MemoryChain) :
    (s.setChain c m).links = Function.update s.links c (m.elim [] MemoryChain.links) := by
  funext d
  by_cases hd : d = c
  · rw [hd, Function.update_self, links, setChain_self]
  · rw [Function.update_of_ne hd, links, setChain_of_ne _ hd, links]

/-- A page is updated, but stays on its chain. -/
theorem Linked.modifyPage (h : s.Linked) {f : Page → Page}
    (hf : (f (s.page p)).chain = (s.page p).chain) :
    (s.modifyPage p f).Linked ∧ ∀ c, (s.modifyPage p f).excess c = s.excess c +
      if s.home p = some c then ((s.bit p).toNat : ℤ) - ((f (s.page p)).referenced).toNat else 0 := by
  have hhome : (s.modifyPage p f).home = s.home := by
    rw [home_of_page (s := s) rfl, hf]
    exact Function.update_eq_self p s.home
  refine ⟨⟨hhome ▸ h.members, h.chain, fun q hq => ?_, h.few⟩, fun c => ?_⟩
  · rw [hhome]
    exact h.free q hq
  · cases hm : s.chain c with
    | none =>
      rw [excess_of_free (s := s.modifyPage p f) hm, excess_of_free hm, if_neg]
      · rfl
      · intro hp
        obtain ⟨m, hm', -⟩ := h.live hp
        rw [hm] at hm'
        cases hm'
    | some m =>
      have hrefs : ((s.modifyPage p f).refs c : ℤ) = s.refs c +
          if s.home p = some c then (((f (s.page p)).referenced).toNat : ℤ) - (s.bit p).toNat
          else 0 := by
        rw [refs, refs, bit_of_page (s := s) rfl]
        change (((s.links c).countP _ : ℕ) : ℤ) = _
        rw [countP_update (h.members.nodup c), if_congr (h.members.mem_iff p c) rfl rfl]
      rw [excess_of_chain (s := s.modifyPage p f) hm, excess_of_chain hm, hrefs]
      split_ifs
      all_goals ring

/-- The pages of a chain stay the same. -/
theorem Linked.setChain (h : s.Linked) (hm : s.chain c = some m) (hl : m'.links = m.links)
    (hok : m'.Ok) :
    (s.setChain c (some m')).Linked ∧ ∀ d, (s.setChain c (some m')).excess d =
      if d = c then s.excess c + (m'.refCounter - m.refCounter) else s.excess d := by
  have hlinks : (s.setChain c (some m')).links = s.links := by
    rw [links_setChain, Option.elim_some, hl, ← links_of_chain hm, Function.update_eq_self]
  refine ⟨⟨hlinks.symm ▸ h.members, fun d n hn => ?_, h.free, h.few⟩, fun d => ?_⟩
  · by_cases hd : d = c
    · rw [hd, setChain_self] at hn
      exact Option.some.inj hn ▸ hok
    · rw [setChain_of_ne _ hd] at hn
      exact h.chain d n hn
  · have hrefs : (s.setChain c (some m')).refs d = s.refs d :=
      refs_congr (by rw [hlinks]) fun _ _ => rfl
    split_ifs with hd
    · subst hd
      rw [excess_of_chain (setChain_self _), excess_of_chain hm, hrefs]
      ring
    · exact excess_congr (setChain_of_ne _ hd) fun _ _ => rfl

/-! ## References -/

/-- What a function does that updates the page `p`, but neither links nor unlinks pages: the page
    becomes `x`, and the excess of the chains `e`. -/
structure Touches (s s' : Mm) (p : PageRef) (x : Page) (e : ChainRef → ℤ) : Prop where
  linked : s'.Linked
  page_eq : s'.page = Function.update s.page p x
  links_eq : s'.links = s.links
  allocated_eq : s'.allocated = s.allocated
  excess_eq : ∀ c, s'.excess c = e c

namespace Touches

variable {s₁ s₂ : Mm} {x y : Page} {e e' : ChainRef → ℤ}

/-- One operation on the page after the other. -/
theorem trans (h₁ : Touches s s₁ p x e) (h₂ : Touches s₁ s₂ p y e') : Touches s s₂ p y e' where
  linked := h₂.linked
  page_eq := by rw [h₂.page_eq, h₁.page_eq, Function.update_idem]
  links_eq := h₂.links_eq.trans h₁.links_eq
  allocated_eq := h₂.allocated_eq.trans h₁.allocated_eq
  excess_eq := h₂.excess_eq

/-- The same change in other words. -/
theorem congr (h : Touches s s' p x e) (hx : x = y) (he : ∀ c, e c = e' c) : Touches s s' p y e' :=
  hx ▸ { h with excess_eq := fun c => (h.excess_eq c).trans (he c) }

/-- Nothing has been done to the page yet. -/
theorem refl (h : s.Linked) : Touches s s p (s.page p) s.excess :=
  ⟨h, (Function.update_eq_self p s.page).symm, rfl, rfl, fun _ => rfl⟩

/-- What has become of the page. -/
theorem page_self (h : Touches s s' p x e) : s'.page p = x := by
  rw [h.page_eq, Function.update_self]

/-- The page stays on its chain. -/
theorem home_eq (h : Touches s s' p x e) (hx : x.chain = s.home p) : s'.home = s.home := by
  rw [home_of_page h.page_eq, hx, Function.update_eq_self]

/-- The number of referenced pages changes with the bit of the page. -/
theorem refs_eq (h : Touches s s' p x e) (hl : s.Linked) (c : ChainRef) : (s'.refs c : ℤ) =
    s.refs c + if s.home p = some c then (x.referenced.toNat : ℤ) - (s.bit p).toNat else 0 := by
  rw [refs, refs, bit_of_page h.page_eq, h.links_eq, countP_update (hl.members.nodup c),
    if_congr (hl.members.mem_iff p c) rfl rfl]

end Touches

/-- A page is changed, and stays on its chain. Its counter does not follow. -/
theorem Linked.touch (h : s.Linked) {f : Page → Page}
    (hf : (f (s.page p)).chain = (s.page p).chain) :
    Touches s (s.modifyPage p f) p (f (s.page p)) fun c => s.excess c +
      if s.home p = some c then ((s.bit p).toNat : ℤ) - ((f (s.page p)).referenced).toNat else 0 :=
  ⟨(h.modifyPage hf).1, rfl, rfl, rfl, (h.modifyPage hf).2⟩

/-- The counter of a chain is set, and possibly its delegate. -/
theorem Linked.setCounter (h : s.Linked) (hm : s.chain c = some m) (m' : MemoryChain)
    (hl : m'.links = m.links) (hok : m'.Ok) (p : PageRef) :
    Touches s (s.setChain c (some m')) p (s.page p) fun d =>
      if d = c then s.excess c + (m'.refCounter - m.refCounter) else s.excess d where
  linked := (h.setChain hm hl hok).1
  page_eq := (Function.update_eq_self p s.page).symm
  links_eq := by
    rw [links_setChain, Option.elim_some, hl, ← links_of_chain hm, Function.update_eq_self]
  allocated_eq := rfl
  excess_eq := (h.setChain hm hl hok).2

/-- The counter of a chain is set to `k`. -/
theorem Linked.setRefs (h : s.Linked) (hm : s.chain c = some m) (k : ℤ) (p : PageRef) :
    Touches s (s.setChain c (some { m with refCounter := k })) p (s.page p) fun d =>
      if d = c then s.excess c + (k - m.refCounter) else s.excess d :=
  h.setCounter hm { m with refCounter := k } rfl
    ((h.chain c m hm).of_links rfl rfl rfl rfl (h.chain c m hm).delegate_mem) p

/-- The counter is raised whether or not the bit was set before. -/
theorem setPageReferenced_spec (h : s.Linked) (p : PageRef) :
    ∃ s', s.setPageReferenced p = .ok s' ∧ Touches s s' p ((s.page p).setBit .referenced) fun c =>
      s.excess c + if s.home p = some c then ((s.bit p).toNat : ℤ) else 0 := by
  have h₁ := h.touch (p := p) (f := (·.setBit .referenced)) rfl
  have href : ((s.page p).setBit .referenced).referenced = true := by simp [Page.referenced]
  rw [setPageReferenced]
  simp only [modifyPage_self, Page.setBit_chain]
  cases hp : (s.page p).chain with
  | none =>
    refine ⟨_, rfl, h₁.congr rfl fun c => ?_⟩
    rw [show s.home p = none from hp]
    simp
  | some c =>
    obtain ⟨m, hm, -⟩ := h.live hp
    have hm₁ : (s.modifyPage p (·.setBit .referenced)).chain c = some m := hm
    refine ⟨_, modifyChain_eq hm₁ _,
      (h₁.trans (h₁.linked.setRefs hm₁ _ p)).congr h₁.page_self fun d => ?_⟩
    rw [h₁.excess_eq, h₁.excess_eq, show s.home p = some c from hp, href]
    by_cases hd : d = c
    · subst hd
      simp only [if_true, Bool.toNat_true, Nat.cast_one]
      ring
    · simp [hd, Ne.symm hd]

/-- The counter is lowered when the bit was set. -/
theorem clearPageReferenced_spec (h : s.Linked) (p : PageRef) :
    ∃ s', s.clearPageReferenced p = .ok s' ∧
      Touches s s' p ((s.page p).clearBit .referenced) s.excess := by
  have h₁ := h.touch (p := p) (f := (·.clearBit .referenced)) rfl
  have href : ((s.page p).clearBit .referenced).referenced = false := by simp [Page.referenced]
  rw [clearPageReferenced]
  simp only [modifyPage_self, Page.clearBit_chain]
  cases hp : (s.page p).chain with
  | none =>
    refine ⟨_, rfl, h₁.congr rfl fun c => ?_⟩
    rw [show s.home p = none from hp]
    simp
  | some c =>
    obtain ⟨m, hm, -⟩ := h.live hp
    cases hbit : (s.page p).referenced with
    | false =>
      refine ⟨_, rfl, h₁.congr rfl fun d => ?_⟩
      rw [show s.bit p = false from hbit, href]
      simp
    | true =>
      have hm₁ : (s.modifyPage p (·.clearBit .referenced)).chain c = some m := hm
      refine ⟨_, modifyChain_eq hm₁ _,
        (h₁.trans (h₁.linked.setRefs hm₁ _ p)).congr h₁.page_self fun d => ?_⟩
      rw [h₁.excess_eq, h₁.excess_eq, show s.home p = some c from hp, href,
        show s.bit p = true from hbit]
      by_cases hd : d = c
      · subst hd
        simp
      · simp [hd, Ne.symm hd]

/-- The function clears as `ClearPageReferenced` does. -/
theorem testClearPageReferenced_spec (h : s.Linked) (p : PageRef) :
    ∃ s' v, s.testClearPageReferenced p = .ok (s', v) ∧
      Touches s s' p ((s.page p).clearBit .referenced) s.excess := by
  obtain ⟨s', heq, hs'⟩ := clearPageReferenced_spec h p
  rw [clearPageReferenced] at heq
  simp only [modifyPage_self, Page.clearBit_chain] at heq
  rw [testClearPageReferenced]
  simp only [modifyPage_self, Page.clearBit_chain]
  cases hp : (s.page p).chain with
  | none =>
    rw [hp] at heq
    exact ⟨s', _, by rw [← Except.ok.inj heq], hs'⟩
  | some c =>
    rw [hp] at heq
    obtain ⟨m, hm, -⟩ := hs'.linked.live
      (show s'.home p = some c by rw [home, hs'.page_self, Page.clearBit_chain, hp])
    refine ⟨s', (s.page p).referenced || decide (m.counter ≠ 0), ?_, hs'⟩
    cases hv : (s.page p).referenced
    all_goals
      simp only [hv, if_true, if_false, Bool.false_eq_true] at heq ⊢
      simp only [heq, ok_bind, derefChain_eq_ok.2 hm]
      rfl

/-! ## Accesses -/

/-- The chains do not depend on the lists of the zone. -/
theorem Linked.setZone (h : s.Linked) (z : Zone) : ({ s with zone := z } : Mm).Linked :=
  ⟨h.members, h.chain, h.free, h.few⟩

/-- The page may become active, and no counter changes. -/
theorem activatePage_spec (h : s.Linked) (p : PageRef) :
    Touches s (s.activatePage p) p
      (if (s.page p).testBit .lru && !(s.page p).testBit .active && !(s.page p).testBit .unevictable
        then (s.page p).setBit .active else s.page p) s.excess := by
  rw [activatePage]
  split_ifs
  · have h₁ := (h.setZone (s.zone.delPageFromLruList p (s.page p).lruBaseType)).touch (p := p)
      (f := (·.setBit .active)) rfl
    have href : ((s.page p).setBit .active).referenced = s.bit p := by
      simp [Page.referenced, bit]
    refine ⟨h₁.linked.setZone _, h₁.page_eq, rfl, rfl, fun c => ?_⟩
    have he := h₁.excess_eq c
    dsimp only at he
    rw [href, show ({ s with zone := s.zone.delPageFromLruList p (s.page p).lruBaseType } :
      Mm).bit p = s.bit p from rfl, sub_self, ite_self, add_zero] at he
    exact he
  · exact .refl h

end Mm

namespace Page

/-- A page that is accessed is promoted: it goes from an inactive list to an active one. -/
def promotes (p : Page) : Bool :=
  !p.testBit .active && !p.testBit .unevictable && (p.linked || p.referenced) && p.testBit .lru

/-- The page after `mark_page_accessed`. -/
def accessed (p : Page) : Page :=
  if p.promotes then (p.setBit .active).clearBit .referenced else p.setBit .referenced

/-- An access leaves the page on its chain. -/
theorem accessed_chain (p : Page) : p.accessed.chain = p.chain := by
  rw [accessed]
  split_ifs
  all_goals rfl

/-- An access sets the bit, unless it activates the page. -/
theorem accessed_referenced (p : Page) : p.accessed.referenced = !p.promotes := by
  rw [accessed]
  cases p.promotes
  all_goals simp [referenced]

/-- A page of a chain is not promoted again. -/
theorem accessed_promotes {p : Page} (h : p.linked = true) : p.accessed.promotes = false := by
  rw [accessed]
  split_ifs with hp
  · simp [promotes]
  · rw [Bool.not_eq_true, promotes, h] at hp
    rw [promotes, show (p.setBit .referenced).linked = true from h]
    simpa using hp

/-- The flag is set already. -/
theorem setBit_of_testBit {p : Page} {f : PageFlag} (h : p.testBit f = true) : p.setBit f = p := by
  rw [setBit, ← h, testBit, Function.update_eq_self]

/-- The order in which two flags are set does not matter. -/
theorem clearBit_setBit_setBit (p : Page) (f g : PageFlag) :
    ((p.setBit f).setBit g).clearBit f = (p.setBit g).clearBit f := by
  simp only [setBit, clearBit, Page.mk.injEq, and_true, and_self]
  funext x
  by_cases hx : x = f
  · rw [hx, Function.update_self, Function.update_self]
  · rw [Function.update_of_ne hx, Function.update_of_ne hx]
    by_cases hg : x = g
    · rw [hg, Function.update_self, Function.update_self]
    · rw [Function.update_of_ne hg, Function.update_of_ne hg, Function.update_of_ne hx]

end Page

namespace Mm

variable {s s' : Mm} {p q : PageRef} {c d : ChainRef} {m m' : MemoryChain}

/-- The counter is reset to the number of the pages of the chain. -/
theorem resetCounter_spec (h : s.Linked) (p : PageRef) :
    ∃ s' r, s.resetCounter p = .ok s' ∧ s'.pageReferenced p = .ok r ∧
      (r ≠ 0 ↔ ((s.page p).linked || (s.page p).referenced) = true) ∧
      Touches s s' p (s.page p) fun c =>
        if s.home p = some c then ((s.links c).length : ℤ) - s.refs c else s.excess c := by
  rw [resetCounter]
  cases hp : (s.page p).chain with
  | none =>
    refine ⟨s, if (s.page p).referenced then 1 else 0, rfl, ?_, ?_, (Touches.refl h).congr rfl
      fun c => ?_⟩
    · rw [pageReferenced, hp]
      split_ifs
      all_goals rfl
    · rw [Page.linked, hp]
      cases (s.page p).referenced <;> simp
    · rw [show s.home p = none from hp]
      simp
  | some c =>
    obtain ⟨m, hm, hpm⟩ := h.live hp
    have hok := h.chain c m hm
    have h₁ := h.setCounter hm { m with refCounter := m.nrLinks, delegate := some p } rfl
      (hok.of_links rfl rfl rfl rfl fun q hq => Option.some.inj hq ▸ hpm) p
    -- The chain of the page is not empty, so that its counter is not 0 then.
    have hnr : Int.bmod m.nrLinks (2 ^ 32) ≠ 0 := by
      have hpos := List.length_pos_of_mem hpm
      have hle := h.length_le c
      rw [links_of_chain hm, maxPages] at hle
      rw [hok.nrLinks_eq, Int.bmod_eq_of_le_mul_two (by omega) (by omega)]
      omega
    refine ⟨_, if (s.page p).referenced then 1 else Int.bmod m.nrLinks (2 ^ 32), modifyChain_eq hm _,
      ?_, ?_, h₁.congr rfl fun d => ?_⟩
    · rw [pageReferenced, setChain_page]
      split_ifs
      · rfl
      · rw [hp]
        dsimp only
        rw [derefChain_eq_ok.2 (setChain_self _)]
        rfl
    · rw [Page.linked, hp]
      split_ifs
      · exact iff_of_true one_ne_zero rfl
      · exact iff_of_true hnr rfl
    · rw [show s.home p = some c from hp]
      by_cases hd : d = c
      · subst hd
        rw [if_pos rfl, if_pos rfl, excess_of_chain hm, links_of_chain hm, hok.nrLinks_eq]
        ring
      · simp [hd, Ne.symm hd]

/-- The excess of the chain of the page becomes the number of its pages that were not referenced. -/
theorem markPageAccessed_spec (h : s.Linked) (p : PageRef) :
    ∃ s', s.markPageAccessed p = .ok s' ∧ Touches s s' p (s.page p).accessed fun c =>
      if s.home p = some c then ((s.links c).length : ℤ) - s.refs c else s.excess c := by
  obtain ⟨s₁, r, heq, hr, hr0, h₁⟩ := resetCounter_spec h p
  have hpage := h₁.page_self
  have hset : s₁.bit p = false → ∃ s₂, s₁.setPageReferenced p = .ok s₂ ∧
      Touches s₁ s₂ p ((s.page p).setBit .referenced) s₁.excess := fun hbit => by
    obtain ⟨s₂, heq₂, h₂⟩ := setPageReferenced_spec h₁.linked p
    refine ⟨s₂, heq₂, h₂.congr (by rw [hpage]) fun c => ?_⟩
    simp [hbit]
  rw [markPageAccessed, heq]
  simp only [ok_bind, hr, hpage]
  have hcond : (!(s.page p).testBit .active && !(s.page p).testBit .unevictable && decide (r ≠ 0) &&
      (s.page p).testBit .lru) = (s.page p).promotes := by
    have hr0' : decide (r ≠ 0) = ((s.page p).linked || (s.page p).referenced) := by
      rw [Bool.eq_iff_iff, decide_eq_true_iff, hr0]
    rw [Page.promotes, hr0']
  rw [hcond, Page.accessed]
  cases hpr : (s.page p).promotes with
  | true =>
    rw [Page.promotes] at hpr
    simp only [Bool.and_eq_true, Bool.not_eq_true'] at hpr
    obtain ⟨⟨⟨hact, hun⟩, -⟩, hlru⟩ := hpr
    -- The bit is set first, unless it is set, so that it is cleared with the counter.
    obtain ⟨s₂, heq₂, h₂⟩ : ∃ s₂, (if (s.page p).linked && !(s.page p).referenced then
        s₁.setPageReferenced p else .ok s₁) = .ok s₂ ∧ ∃ x : Page, Touches s₁ s₂ p x s₁.excess ∧
          (x = s.page p ∨ x = (s.page p).setBit .referenced) := by
      split_ifs with hif
      · simp only [Bool.and_eq_true, Bool.not_eq_true'] at hif
        obtain ⟨s₂, heq₂, h₂⟩ := hset (by rw [bit, hpage, hif.2])
        exact ⟨s₂, heq₂, _, h₂, .inr rfl⟩
      · exact ⟨s₁, rfl, _, .refl h₁.linked, .inl hpage⟩
    obtain ⟨x, h₂, hx⟩ := h₂
    have h₃ := activatePage_spec h₂.linked p
    have hbits : (x.testBit .lru && !x.testBit .active && !x.testBit .unevictable) = true := by
      rcases hx with rfl | rfl
      · simp [hact, hun, hlru]
      · simp [hact, hun, hlru]
    rw [h₂.page_self, hbits, if_pos rfl] at h₃
    obtain ⟨s₄, heq₄, h₄⟩ := clearPageReferenced_spec h₃.linked p
    refine ⟨s₄, ?_, ((h₁.trans h₂).trans h₃).trans h₄ |>.congr ?_ fun c => ?_⟩
    · rw [if_pos rfl]
      simp only [heq₂, ok_bind, heq₄]
    · rw [h₃.page_self, if_pos rfl]
      rcases hx with rfl | rfl
      · rfl
      · exact Page.clearBit_setBit_setBit ..
    · rw [h₃.excess_eq, h₂.excess_eq, h₁.excess_eq]
  | false =>
    cases hbit : (s.page p).referenced with
    | false =>
      obtain ⟨s₂, heq₂, h₂⟩ := hset (by rw [bit, hpage, hbit])
      exact ⟨s₂, by simpa using heq₂, (h₁.trans h₂).congr (by simp) h₁.excess_eq⟩
    | true =>
      refine ⟨s₁, by simp, h₁.congr ?_ fun _ => rfl⟩
      simpa using (Page.setBit_of_testBit hbit).symm

end Mm

end Mcpq.Kernel
