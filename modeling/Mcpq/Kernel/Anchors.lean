import Mcpq.Kernel.AnchorCall
import Mcpq.Kernel.FreePages

/-!
# Anchors and their locks

A page that is the anchor of a chain is locked, so that it is not evicted, and should be unlocked when
it ceases to be the anchor: a page that is allocated is locked exactly if it is the anchor of a chain
(`Balanced`). The functions of `mlock.c` are taken to set and clear the lock of a page (`PageLock`), and
no other function does.

What each function does to the anchors and the locks: most change neither (`SameAnchors`), one that
breaks a chain unlocks its anchor (`DropsAnchor`), and one that links a range locks the page at the
address of the anchor (`mlinkPages_locked`).
-/

namespace Mcpq.Kernel

/-- The functions of `mlock.c` set and clear the lock of a page. -/
class PageLock extends Mlock where
  mlock_mlocked : ∀ p, (mlockVmaPage p).testBit .mlocked = true
  munlock_mlocked : ∀ p, (munlockVmaPage p).testBit .mlocked = false

/-- Pages are locked by their flag. -/
@[reducible] def PageLock.flag : PageLock where
  toMlock := Mlock.flag
  mlock_mlocked p := Page.testBit_setBit p .mlocked .mlocked
  munlock_mlocked p := Page.testBit_clearBit p .mlocked .mlocked

/-- An access leaves `PG_mlocked`. -/
theorem Page.accessed_mlocked (p : Page) : p.accessed.testBit .mlocked = p.testBit .mlocked := by
  rw [accessed]
  split_ifs
  all_goals simp

/-- A page keeps its lock when it is checked only if it is bad. -/
theorem Page.freePagesCheck_unlocked {p : Page} (h : p.testBit .mlocked = false) :
    p.unmapAnon.freePagesCheck.1.testBit .mlocked = false := by
  have hx : p.unmapAnon.testBit .mlocked = false := by
    rw [unmapAnon]
    split_ifs
    all_goals exact h
  rw [freePagesCheck]
  split_ifs
  · exact hx
  · rfl

namespace Mm

variable {s s' s₁ : Mm} {p q : PageRef} {c d : ChainRef} {m m' : MemoryChain} {x : Page}
  {anchor addr : ℕ} {l : List (ℕ × PageRef)} {lookup : ℕ → Option PageRef} {tsk : TaskRef} {r : ℤ}

/-- The lock of a page. -/
def locked (s : Mm) (p : PageRef) : Bool := (s.page p).testBit .mlocked

/-- The anchor of a chain, which has none if it is free. -/
def anchorOf (s : Mm) (c : ChainRef) : Option PageRef := (s.chain c).bind MemoryChain.anchor

/-- The pages that are allocated are locked exactly if they are anchors. -/
def Balanced (s : Mm) : Prop :=
  ∀ p, s.allocated p = true → (s.locked p = true ↔ ∃ c, s.anchorOf c = some p)

/-- The anchor of a chain that is in use. -/
theorem anchorOf_of_chain (h : s.chain c = some m) : s.anchorOf c = m.anchor := by
  rw [anchorOf, h]
  rfl

/-- One chain is changed. -/
theorem anchorOf_of_update {n : Option MemoryChain} (h : s'.chain = Function.update s.chain c n) :
    s'.anchorOf = Function.update s.anchorOf c (n.bind MemoryChain.anchor) := by
  funext d
  rw [anchorOf, h]
  by_cases hd : d = c
  · rw [hd, Function.update_self, Function.update_self]
  · rw [Function.update_of_ne hd, Function.update_of_ne hd, anchorOf]

/-- One page is changed. -/
theorem locked_of_page (h : s'.page = Function.update s.page p x) :
    s'.locked = Function.update s.locked p (x.testBit .mlocked) := by
  funext q
  rw [locked, h]
  by_cases hq : q = p
  · rw [hq, Function.update_self, Function.update_self]
  · rw [Function.update_of_ne hq, Function.update_of_ne hq, locked]

/-- The anchor of a chain is a page of the chain. -/
theorem Linked.home_of_anchor (h : s.Linked) (hp : s.anchorOf c = some p) : s.home p = some c := by
  obtain ⟨m, hm, ha⟩ := Option.bind_eq_some_iff.1 hp
  rw [← h.members.mem_iff, links_of_chain hm]
  exact (h.chain c m hm).anchor_mem p ha

/-- A page is the anchor of one chain. -/
theorem Linked.anchor_unique (h : s.Linked) (hc : s.anchorOf c = some p) (hd : s.anchorOf d = some p) :
    c = d :=
  Option.some.inj ((h.home_of_anchor hc).symm.trans (h.home_of_anchor hd))

/-! ## Functions that keep the anchors -/

/-- Neither anchors nor locks change, nor the pages that are allocated. -/
structure SameAnchors (s s' : Mm) : Prop where
  anchorOf_eq : s'.anchorOf = s.anchorOf
  locked_eq : s'.locked = s.locked
  allocated_eq : s'.allocated = s.allocated

namespace SameAnchors

/-- Nothing has changed. -/
theorem refl (s : Mm) : SameAnchors s s := ⟨rfl, rfl, rfl⟩

/-- One operation after the other. -/
theorem trans (h₁ : SameAnchors s s₁) (h₂ : SameAnchors s₁ s') : SameAnchors s s' :=
  ⟨h₂.anchorOf_eq.trans h₁.anchorOf_eq, h₂.locked_eq.trans h₁.locked_eq,
    h₂.allocated_eq.trans h₁.allocated_eq⟩

/-- A change of a page that leaves `PG_mlocked`. -/
theorem modifyPage (s : Mm) (p : PageRef) {f : Page → Page}
    (hf : (f (s.page p)).testBit .mlocked = (s.page p).testBit .mlocked) :
    SameAnchors s (s.modifyPage p f) where
  anchorOf_eq := rfl
  locked_eq := by
    rw [locked_of_page (s := s) rfl, hf]
    exact Function.update_eq_self p s.locked
  allocated_eq := rfl

/-- A change of a chain that leaves its anchor. -/
theorem setChain (hm : s.chain c = some m) (ha : m'.anchor = m.anchor) :
    SameAnchors s (s.setChain c (some m')) where
  anchorOf_eq := by
    rw [anchorOf_of_update (s := s) rfl, Option.bind_some, ha, ← anchorOf_of_chain hm]
    exact Function.update_eq_self c s.anchorOf
  locked_eq := rfl
  allocated_eq := rfl

/-- The same for a chain that is looked up. -/
theorem modifyChain {f : MemoryChain → MemoryChain} (heq : s.modifyChain c f = .ok s')
    (hf : ∀ m, (f m).anchor = m.anchor) : SameAnchors s s' := by
  obtain ⟨m, hm, heq⟩ := bind_eq_ok.1 heq
  obtain rfl := Except.ok.inj heq
  exact .setChain (derefChain_eq_ok.1 hm) (hf m)

/-- Only the bit and the counter change. -/
theorem setPageReferenced (heq : s.setPageReferenced p = .ok s') : SameAnchors s s' := by
  have hflag := modifyPage s p (f := (·.setBit .referenced)) (by simp)
  rw [Mm.setPageReferenced] at heq
  split at heq
  · exact Except.ok.inj heq ▸ hflag
  · exact hflag.trans (.modifyChain heq fun _ => rfl)

/-- Only the bit and the counter change. -/
theorem clearPageReferenced (heq : s.clearPageReferenced p = .ok s') : SameAnchors s s' := by
  have hflag := modifyPage s p (f := (·.clearBit .referenced)) (by simp)
  rw [Mm.clearPageReferenced] at heq
  split at heq
  · exact Except.ok.inj heq ▸ hflag
  · split_ifs at heq
    · exact hflag.trans (.modifyChain heq fun _ => rfl)
    · exact Except.ok.inj heq ▸ hflag

/-- Only the bit and the counter change. -/
theorem testClearPageReferenced {v : Bool} (heq : s.testClearPageReferenced p = .ok (s', v)) :
    SameAnchors s s' := by
  have hflag := modifyPage s p (f := (·.clearBit .referenced)) (by simp)
  rw [Mm.testClearPageReferenced] at heq
  split at heq
  · obtain ⟨rfl, -⟩ := Prod.mk.inj (Except.ok.inj heq)
    exact hflag
  · obtain ⟨s₁, heq₁, heq⟩ := bind_eq_ok.1 heq
    obtain ⟨m, -, heq⟩ := bind_eq_ok.1 heq
    obtain ⟨rfl, -⟩ := Prod.mk.inj (Except.ok.inj heq)
    split_ifs at heq₁
    · exact hflag.trans (.modifyChain heq₁ fun _ => rfl)
    · exact Except.ok.inj heq₁ ▸ hflag

/-- Only the list of the page changes. -/
theorem activatePage (s : Mm) (p : PageRef) : SameAnchors s (s.activatePage p) := by
  rw [Mm.activatePage]
  split_ifs
  · refine ⟨rfl, ?_, rfl⟩
    rw [locked_of_page (s := s) (p := p) (x := (s.page p).setBit .active) rfl, Page.testBit_setBit]
    exact Function.update_eq_self p s.locked
  · exact .refl s

/-- An access leaves the anchors. -/
theorem markPageAccessed (heq : s.markPageAccessed p = .ok s') : SameAnchors s s' := by
  obtain ⟨s₁, heq₁, heq⟩ := bind_eq_ok.1 heq
  obtain ⟨r, -, heq⟩ := bind_eq_ok.1 heq
  have h₁ : SameAnchors s s₁ := by
    rw [resetCounter] at heq₁
    split at heq₁
    · exact Except.ok.inj heq₁ ▸ .refl s
    · exact .modifyChain heq₁ fun _ => rfl
  dsimp only at heq
  split_ifs at heq
  · obtain ⟨s₂, heq₂, heq⟩ := bind_eq_ok.1 heq
    exact h₁.trans ((setPageReferenced heq₂).trans ((activatePage s₂ p).trans
      (clearPageReferenced heq)))
  · rw [ok_bind] at heq
    exact h₁.trans ((activatePage s₁ p).trans (clearPageReferenced heq))
  · exact h₁.trans (setPageReferenced heq)
  · exact Except.ok.inj heq ▸ h₁

/-- A page is unlinked from a chain that is broken. -/
theorem unlinkFromChain (heq : s.unlinkFromChain c p = .ok s') : SameAnchors s s' := by
  obtain ⟨m, hm, heq⟩ := bind_eq_ok.1 heq
  obtain ⟨m', hdel, heq⟩ := bind_eq_ok.1 heq
  have h₁ : SameAnchors s (s.setChain c (some m')) := by
    rw [listDel] at hdel
    split_ifs at hdel
    obtain rfl := Except.ok.inj hdel
    exact .setChain (derefChain_eq_ok.1 hm) rfl
  have h₂ := h₁.trans (modifyPage _ p (f := fun x => { x with chain := none }) rfl)
  rw [resetPage] at heq
  split_ifs at heq
  · have h₃ := h₂.trans (modifyPage _ p (f := (·.clearBit .referenced)) (by simp))
    split at heq
    · cases heq
    · exact h₃.trans (.modifyChain heq fun _ => rfl)
  · exact Except.ok.inj heq ▸ h₂

/-- The pages of a chain are unlinked by the exit of its task. -/
theorem unlinkChainFast (heq : s.unlinkChainFast c = .ok s') : SameAnchors s s' := by
  obtain ⟨m, -, heq⟩ := bind_eq_ok.1 heq
  refine foldlM_invariant (SameAnchors s) (fun p _ s₁ s₂ h₁ heq => ?_) (.refl s) heq
  obtain ⟨n, hn, heq⟩ := bind_eq_ok.1 heq
  obtain ⟨n', hdel, heq⟩ := bind_eq_ok.1 heq
  obtain rfl := Except.ok.inj heq
  rw [listDel] at hdel
  split_ifs at hdel
  obtain rfl := Except.ok.inj hdel
  have hset : SameAnchors s₁ (s₁.setChain c (some { n with links := n.links.erase p })) :=
    .setChain (derefChain_eq_ok.1 hn) rfl
  exact h₁.trans (hset.trans (modifyPage _ p (f := fun x => { x with chain := none }) rfl))

end SameAnchors

/-! ## Chains that are broken -/

/-- The chain has no anchor any more, and the page that was the anchor is unlocked. -/
structure DropsAnchor (s s' : Mm) (c : ChainRef) : Prop where
  anchorOf_eq : s'.anchorOf = Function.update s.anchorOf c none
  locked_eq : ∀ q, s'.locked q = (s.locked q && decide (s.anchorOf c ≠ some q))
  allocated_eq : s'.allocated = s.allocated

/-- A chain whose pages are all unlinked has no anchor any more, and its page is unlocked. -/
theorem unlinkChain_drops [PageLock] (heq : s.unlinkChain c = .ok s') : DropsAnchor s s' c := by
  obtain ⟨m, -, heq⟩ := bind_eq_ok.1 heq
  obtain ⟨s₁, heq₁, heq⟩ := bind_eq_ok.1 heq
  have h₁ : SameAnchors s s₁ := foldlM_invariant (SameAnchors s)
    (fun p _ _ _ h₁ heq => h₁.trans (.unlinkFromChain heq)) (.refl s) heq₁
  obtain ⟨m₁, hm₁, heq⟩ := bind_eq_ok.1 heq
  obtain rfl := Except.ok.inj heq
  have hanchor : s.anchorOf c = m₁.anchor := by
    rw [← h₁.anchorOf_eq, anchorOf_of_chain (derefChain_eq_ok.1 hm₁)]
  refine ⟨?_, fun q => ?_, ?_⟩
  · refine (anchorOf_of_update rfl).trans ?_
    rw [← h₁.anchorOf_eq]
    cases m₁.anchor
    all_goals rfl
  · rw [hanchor, ← h₁.locked_eq]
    cases m₁.anchor with
    | none => simp [locked]
    | some a =>
      change (s₁.modifyPage a Mlock.munlockVmaPage).locked q = _
      rw [locked_of_page (s := s₁) rfl, PageLock.munlock_mlocked]
      by_cases hq : q = a
      · rw [hq, Function.update_self]
        simp
      · rw [Function.update_of_ne hq]
        simp [Ne.symm hq]
  · rw [← h₁.allocated_eq]
    cases m₁.anchor
    all_goals rfl

/-- A chain that has been broken is freed. -/
theorem DropsAnchor.kfreeChain (h : DropsAnchor s s' c) (heq : s'.kfreeChain c = .ok s₁) :
    DropsAnchor s s₁ c := by
  obtain ⟨m, -, heq⟩ := bind_eq_ok.1 heq
  obtain rfl := Except.ok.inj heq
  refine ⟨?_, h.locked_eq, h.allocated_eq⟩
  rw [anchorOf_of_update (s := s') rfl, h.anchorOf_eq, Function.update_idem]
  rfl

/-- The locks are balanced again once the anchor is unlocked. -/
theorem Balanced.drops (h : s.Balanced) (hl : s.Linked) (hd : DropsAnchor s s' c) :
    s'.Balanced := by
  intro p hp
  rw [hd.locked_eq, hd.anchorOf_eq, Bool.and_eq_true, decide_eq_true_iff, h p (hd.allocated_eq ▸ hp)]
  constructor
  · rintro ⟨⟨d, hdp⟩, hne⟩
    have hdc : d ≠ c := fun hdc => by
      rw [hdc] at hdp
      exact hne hdp
    exact ⟨d, by rw [Function.update_of_ne hdc, hdp]⟩
  · rintro ⟨d, hdp⟩
    by_cases hdc : d = c
    · rw [hdc, Function.update_self] at hdp
      cases hdp
    · rw [Function.update_of_ne hdc] at hdp
      exact ⟨⟨d, hdp⟩, fun hc => hdc (hl.anchor_unique hdp hc)⟩

/-- The locks stay balanced if they stay the same, with the anchors, for the pages allocated. -/
theorem Balanced.congr (h : s.Balanced) (hs : ∀ p, s'.allocated p = true → s.allocated p = true ∧
    s'.locked p = s.locked p ∧ ∀ c, s'.anchorOf c = some p ↔ s.anchorOf c = some p) :
    s'.Balanced := by
  intro p hp
  obtain ⟨halloc, hlocked, hanchor⟩ := hs p hp
  rw [hlocked, h p halloc]
  exact (exists_congr hanchor).symm

/-- The balance is about the anchors and the locked pages only. -/
theorem Balanced.same (h : s.Balanced) (hs : SameAnchors s s') : s'.Balanced :=
  h.congr fun p hp => ⟨hs.allocated_eq ▸ hp, congrFun hs.locked_eq p, fun c => by rw [hs.anchorOf_eq]⟩

/-! ## Pages that are linked -/

/-- The page visited at the address of the anchor is locked. -/
theorem mlinkPages_locked [PageLock] (h : s.Linked) (hm : s.chain c = some m)
    (halloc : ∀ x ∈ l, s.allocated x.2 = true) (heq : s.mlinkPages c anchor l = .ok s') (q : PageRef) :
    s'.locked q = (s.locked q || decide ((anchor, q) ∈ l)) := by
  revert q
  refine (foldlM_run (fun done s₁ => Visited s c anchor done s₁ ∧
    ∀ q, s₁.locked q = (s.locked q || decide ((anchor, q) ∈ done)))
    (fun done y s₁ s₂ hy ⟨hv, hlocked⟩ heq => ⟨hv.step hm (halloc y hy) heq, fun q => ?_⟩)
    ⟨.nil h, fun q => by simp⟩ heq).2
  obtain ⟨m₁, hm₁, -⟩ := hv.chain_eq m hm
  have hy' := mlinkFound_spec hv.linked (by rw [hm₁, Function.update_self])
    (by rw [hv.allocated_eq, halloc y hy]) heq
  have hbit : ((s₁.linkedPage c (decide (y.1 = anchor)) y.2).accessed).testBit .mlocked =
      (s₁.locked y.2 || decide (y.1 = anchor)) := by
    rw [Page.accessed_mlocked, linkedPage, linkedTo]
    by_cases hya : y.1 = anchor
    · rw [if_pos (decide_eq_true hya), PageLock.mlock_mlocked, decide_eq_true hya, Bool.or_true]
    · rw [if_neg (by simpa using hya), decide_eq_false hya, Bool.or_false]
      exact Page.accessed_mlocked _
  rw [locked_of_page hy'.page_eq, hbit]
  by_cases hq : q = y.2
  · subst hq
    rw [Function.update_self, hlocked]
    obtain ⟨a, p⟩ := y
    simp only [List.mem_append, List.mem_singleton, Prod.mk.injEq, and_true, Bool.decide_or,
      Bool.or_assoc, eq_comm]
  · have hne : (anchor, q) ≠ y := fun he => hq (congrArg Prod.snd he)
    rw [Function.update_of_ne hq, hlocked]
    simp [hne]

/-- The locks are balanced if the chain had no other anchor. -/
theorem Balanced.mlinkPages [PageLock] (h : s.Balanced) (hl : s.Linked) (hm : s.chain c = some m)
    (halloc : ∀ x ∈ l, s.allocated x.2 = true)
    (hanchor : ∀ q, s.anchorOf c = some q → ∀ p, (anchor, p) ∈ l → p = q)
    (hfun : ∀ p q, (anchor, p) ∈ l → (anchor, q) ∈ l → p = q)
    (heq : s.mlinkPages c anchor l = .ok s') : s'.Balanced := by
  have hv := mlinkPages_visited hl hm halloc heq
  have hlocked := mlinkPages_locked hl hm halloc heq
  obtain ⟨m', hm', hcases⟩ := hv.chain_eq m hm
  have hanchorOf : s'.anchorOf = Function.update s.anchorOf c m'.anchor := anchorOf_of_update hm'
  intro q hq
  rw [hv.allocated_eq] at hq
  rw [hlocked, hanchorOf, Bool.or_eq_true, decide_eq_true_iff, h q hq]
  rcases hcases with ⟨⟨a, p⟩, hp, rfl, hmp⟩ | ⟨hne, hkeep⟩
  · rw [hmp]
    constructor
    · rintro (⟨d, hd⟩ | hq)
      · by_cases hdc : d = c
        · rw [hdc] at hd
          refine ⟨c, ?_⟩
          rw [Function.update_self, hanchor q hd p hp]
        · exact ⟨d, by rw [Function.update_of_ne hdc, hd]⟩
      · refine ⟨c, ?_⟩
        rw [Function.update_self, hfun p q hp hq]
    · rintro ⟨d, hd⟩
      by_cases hdc : d = c
      · rw [hdc, Function.update_self] at hd
        obtain rfl := Option.some.inj hd
        exact .inr hp
      · rw [Function.update_of_ne hdc] at hd
        exact .inl ⟨d, hd⟩
  · rw [hkeep, ← anchorOf_of_chain hm, Function.update_eq_self]
    exact or_iff_left fun hq => hne _ hq rfl

/-! ## Pages that are freed and allocated -/

/-- `free_hot_cold_page`, as far as the chains and the page are concerned: the lock of the page is
    cleared before it is checked. -/
def freeHotColdPage [Mlock] (s : Mm) (p : PageRef) : Result Mm :=
  (s.modifyPage p (·.clearBit .mlocked)).freePage p

/-- The page passes its check when it is freed. -/
def freesUnlocked (s : Mm) (p : PageRef) : Bool := (s.modifyPage p (·.clearBit .mlocked)).passes p

/-- A page that is the anchor and is not bad is unlinked when it is freed. -/
theorem Balanced.freeHotColdPage [Mlock] (h : s.Balanced) (hl : s.Linked)
    (hfree : ∀ c, s.anchorOf c = some p → s.freesUnlocked p = true)
    (heq : s.freeHotColdPage p = .ok s') : s'.Balanced := by
  obtain ⟨s₀, hs₀⟩ : ∃ s₀, s.modifyPage p (·.clearBit .mlocked) = s₀ := ⟨_, rfl⟩
  have hl₀ : s₀.Linked := hs₀ ▸ (hl.modifyPage (p := p) (f := (·.clearBit .mlocked)) rfl).1
  have hlock₀ : (s₀.page p).testBit .mlocked = false := by
    rw [← hs₀, modifyPage_self]
    exact Page.testBit_clearBit _ .mlocked .mlocked
  have hlocked₀ : ∀ q, q ≠ p → s₀.locked q = s.locked q := fun q hq => by
    rw [← hs₀, locked, modifyPage_of_ne _ hq, locked]
  have hanchor₀ : s₀.anchorOf = s.anchorOf := by
    rw [← hs₀]
    rfl
  have halloc₀ : s₀.allocated = s.allocated := by
    rw [← hs₀]
    rfl
  obtain ⟨s₁, heq₁, -, h₁⟩ := freePagesChecks_spec hl₀ p
  have hchecks := freePagesChecks_checks s₀ p 0
  rw [heq₁] at hchecks
  have hanchor₁ : s₁.anchorOf = s.anchorOf := by
    rw [← hanchor₀]
    funext c
    rw [anchorOf, hchecks.chain_eq, anchorOf]
  have hlocked₁ : s₁.locked = Function.update s₀.locked p false := by
    rw [locked_of_page h₁.page_eq, Page.freePagesCheck_unlocked hlock₀]
  rw [Mm.freeHotColdPage, hs₀, freePage, freePagesPrepare, heq₁] at heq
  rw [freesUnlocked, hs₀] at hfree
  cases hpass : s₀.passes p with
  | false =>
    rw [hpass] at heq hfree
    obtain rfl : s₁ = s' := Except.ok.inj heq
    intro q hq
    rw [h₁.allocated_eq, halloc₀] at hq
    rw [hlocked₁, hanchor₁]
    by_cases hqp : q = p
    · rw [hqp, Function.update_self]
      refine iff_of_false Bool.false_ne_true ?_
      rintro ⟨c, hc⟩
      exact Bool.false_ne_true (hfree c hc)
    · rw [Function.update_of_ne hqp, hlocked₀ q hqp, h q hq]
  | true =>
    rw [hpass] at heq
    obtain ⟨s₂, heq₂, -, -, halloc₂, -⟩ := unlinkFreed_spec h₁.linked p
    simp only [if_true, ne_eq, not_true_eq_false, if_false, heq₂, ok_bind, pure_eq_ok] at heq
    obtain rfl := Except.ok.inj heq
    -- The page is not allocated any more, and the other pages have kept their lock.
    refine h.congr fun q hq => ?_
    dsimp only at hq
    have hqp : q ≠ p := fun hqp => by
      rw [hqp, Function.update_self] at hq
      cases hq
    rw [Function.update_of_ne hqp, halloc₂, h₁.allocated_eq, halloc₀] at hq
    refine ⟨hq, ?_⟩
    have hsame₁ : s₁.locked q = s.locked q := by
      rw [hlocked₁, Function.update_of_ne hqp, hlocked₀ q hqp]
    cases hp : s₁.home p with
    | none =>
      rw [unlinkFreed, show (s₁.page p).chain = none from hp] at heq₂
      obtain rfl := Except.ok.inj heq₂
      exact ⟨hsame₁, fun c => by rw [← hanchor₁]; rfl⟩
    | some c =>
      obtain ⟨m, hm, hpm⟩ := h₁.linked.live hp
      obtain ⟨s₃, m', heq₃, hev⟩ := unlinkFreed_evicts hp hm hpm
      obtain rfl := Except.ok.inj (heq₃.symm.trans heq₂)
      refine ⟨(congrArg (·.testBit .mlocked) (hev.page_eq q hqp)).trans hsame₁, fun d => ?_⟩
      change s₃.anchorOf d = _ ↔ _
      rw [anchorOf_of_update hev.chain_eq, Option.bind_some, hev.anchor_eq, ← hanchor₁,
        ← anchorOf_of_chain hm]
      by_cases hd : d = c
      · rw [hd, Function.update_self]
        split_ifs with hc
        · rw [hc]
          simp [Ne.symm hqp]
        · exact Iff.rfl
      · rw [Function.update_of_ne hd]

/-- A page that is allocated is not locked. -/
theorem Balanced.allocPage (h : s.Balanced) (hl : s.Linked) (hp : s.allocated p = false) :
    (s.allocPage p).Balanced := by
  rw [Mm.allocPage, prepNewPage]
  dsimp only
  by_cases hb : (s.page p).checkNewPage.2 = true
  · rw [if_pos hb, if_neg one_ne_zero]
    refine h.congr fun q hq => ⟨hq, ?_, fun c => Iff.rfl⟩
    have hqp : q ≠ p := fun hqp => by
      rw [modifyPage_allocated, hqp, hp] at hq
      cases hq
    rw [locked, modifyPage_of_ne _ hqp, locked]
  · rw [if_neg hb, if_pos rfl]
    intro q hq
    change ((s.modifyPage p fun x => { x with count := 1, chain := none }).locked q = true ↔
      ∃ c, s.anchorOf c = some q)
    rw [locked_of_page (s := s) rfl]
    by_cases hqp : q = p
    · rw [hqp, Function.update_self]
      refine iff_of_false (fun hlocked => hb ?_) ?_
      · -- A page with a flag is bad.
        rw [Page.checkNewPage, if_pos]
        rw [Bool.or_eq_true]
        exact .inr (List.any_eq_true.2 ⟨.mlocked, by decide, hlocked⟩)
      · rintro ⟨c, hc⟩
        have hhome := hl.home_of_anchor hc
        rw [hl.free p hp] at hhome
        cases hhome
    · dsimp only at hq
      rw [Function.update_of_ne hqp] at hq ⊢
      exact h q hq

/-! ## Tasks -/

/-- A new chain has no anchor. -/
theorem SameAnchors.newMemChain {addr : ChainRef} (hc : s.chain addr = none)
    (heq : s.newMemChain tsk addr = .ok (s', r)) : SameAnchors s s' := by
  rw [Mm.newMemChain] at heq
  dsimp only at heq
  split_ifs at heq
  · obtain ⟨slot, -, heq⟩ := bind_eq_ok.1 heq
    split_ifs at heq
    obtain ⟨rfl, -⟩ := Prod.mk.inj (Except.ok.inj heq)
    refine ⟨?_, rfl, rfl⟩
    have hnone : s.anchorOf addr = none := by rw [anchorOf, hc, Option.bind_none]
    rw [anchorOf_of_update (s := s) rfl, Option.bind_some, ← hnone, Function.update_eq_self]
  · obtain ⟨rfl, -⟩ := Prod.mk.inj (Except.ok.inj heq)
    exact ⟨rfl, rfl, rfl⟩

/-- The exit of a task whose chains have no anchors. -/
theorem SameAnchors.doExit (h : ∀ mcc c, s.mcc tsk = some mcc → some c ∈ mcc.chains →
    s.anchorOf c = none) (heq : s.doExit tsk = .ok s') : SameAnchors s s' := by
  rcases doExit_cases heq with ⟨-, rfl⟩ | ⟨mcc, x, hmcc, hx, rfl⟩
  · exact ⟨rfl, rfl, rfl⟩
  · suffices hs₁ : SameAnchors s x.2 from ⟨hs₁.anchorOf_eq, hs₁.locked_eq, hs₁.allocated_eq⟩
    refine (exitSlots_invariant (I := fun r => r.1.chains = mcc.chains ∧ SameAnchors s r.2)
      (fun mcc₁ i s₂ r ⟨hchains, h₂⟩ heq₃ => ?_) ⟨rfl, .refl s⟩ hx).2
    rcases exitSlot_cases heq₃ with rfl | ⟨c, -, s₃, hc, -, heq₄, heq₅, hr⟩
    · exact ⟨hchains, h₂⟩
    · have h₃ := h₂.trans (.unlinkChainFast heq₄)
      obtain ⟨n, -, heq₅⟩ := bind_eq_ok.1 heq₅
      -- The chain that is freed is one of the task.
      have hnone : s₃.anchorOf c = none := by
        rw [h₃.anchorOf_eq]
        exact h mcc c hmcc (hchains ▸ hc)
      rw [← Except.ok.inj heq₅, hr]
      refine ⟨hchains, h₃.trans ⟨?_, rfl, rfl⟩⟩
      rw [anchorOf_of_update (s := s₃) rfl, Option.bind_none, ← hnone, Function.update_eq_self]

end Mm

end Mcpq.Kernel
