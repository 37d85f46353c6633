import Mcpq.Kernel.Linked

/-!
# Accesses

What `mark_page_accessed` does to the chain of the page: the counter is set to the number of its pages, and
then follows the bit of the page (`markPageAccessed_chain`). The other chains stay as they are
(`markPageAccessed_chain_of_none`, `markPageAccessed_live`).
-/

namespace Mcpq.Kernel

/-- The chain after its page `p`, which was `x`, is marked as accessed. -/
def MemoryChain.accessed (m : MemoryChain) (p : PageRef) (x : Page) : MemoryChain :=
  { m with
    refCounter := m.nrLinks + x.accessed.referenced.toNat - x.referenced.toNat
    delegate := some p }

namespace Mm

variable {s s' s₁ : Mm} {p q : PageRef} {c d : ChainRef} {m m' : MemoryChain} {x : Page}

/-- The pages point to the same chains, and the chain `c`, which was `m`, to the same pages. -/
structure SetsCounter (s s' : Mm) (c : ChainRef) (m : MemoryChain) : Prop where
  home_eq : s'.home = s.home
  chain_eq : ∃ k, s'.chain = Function.update s.chain c (some { m with refCounter := k })

namespace SetsCounter

theorem chain_self (h : SetsCounter s s' c m) :
    ∃ k, s'.chain c = some { m with refCounter := k } := by
  obtain ⟨k, hk⟩ := h.chain_eq
  exact ⟨k, by rw [hk, Function.update_self]⟩

/-- The counter is set again. -/
theorem setChain (h : SetsCounter s s' c m) (hhome : s₁.home = s'.home)
    (hchain : s₁.chain = s'.chain) (k : ℤ) :
    SetsCounter s (s₁.setChain c (some { m with refCounter := k })) c m where
  home_eq := hhome.trans h.home_eq
  chain_eq := by
    obtain ⟨k', hk'⟩ := h.chain_eq
    refine ⟨k, ?_⟩
    change Function.update s₁.chain c _ = _
    rw [hchain, hk', Function.update_idem]

theorem of_eq (h : SetsCounter s s' c m) (hhome : s₁.home = s'.home) (hchain : s₁.chain = s'.chain) :
    SetsCounter s s₁ c m :=
  ⟨hhome.trans h.home_eq, hchain ▸ h.chain_eq⟩

/-- The flags of a page do not matter. -/
theorem home_modifyPage (s : Mm) (p : PageRef) {f : Page → Page}
    (hf : (f (s.page p)).chain = (s.page p).chain) : (s.modifyPage p f).home = s.home := by
  rw [home_of_page (s := s) rfl, hf]
  exact Function.update_eq_self p s.home

theorem setPageReferenced (h : SetsCounter s s' c m) (hp : s.home p = some c)
    (heq : s'.setPageReferenced p = .ok s₁) : SetsCounter s s₁ c m := by
  obtain ⟨k, hk⟩ := h.chain_self
  rw [Mm.setPageReferenced] at heq
  simp only [modifyPage_self, Page.setBit_chain] at heq
  rw [show (s'.page p).chain = some c from (congrFun h.home_eq p).trans hp] at heq
  dsimp only at heq
  rw [modifyChain_eq (s := s'.modifyPage p (·.setBit .referenced)) hk] at heq
  obtain rfl := Except.ok.inj heq
  exact h.setChain (home_modifyPage s' p rfl) rfl (k + 1)

theorem clearPageReferenced (h : SetsCounter s s' c m) (hp : s.home p = some c)
    (heq : s'.clearPageReferenced p = .ok s₁) : SetsCounter s s₁ c m := by
  obtain ⟨k, hk⟩ := h.chain_self
  rw [Mm.clearPageReferenced] at heq
  simp only [modifyPage_self, Page.clearBit_chain] at heq
  rw [show (s'.page p).chain = some c from (congrFun h.home_eq p).trans hp] at heq
  dsimp only at heq
  split_ifs at heq
  · rw [modifyChain_eq (s := s'.modifyPage p (·.clearBit .referenced)) hk] at heq
    obtain rfl := Except.ok.inj heq
    exact h.setChain (home_modifyPage s' p rfl) rfl (k - 1)
  · obtain rfl := Except.ok.inj heq
    exact h.of_eq (home_modifyPage s' p rfl) rfl

theorem activatePage (h : SetsCounter s s' c m) (p : PageRef) :
    SetsCounter s (s'.activatePage p) c m := by
  rw [Mm.activatePage]
  split_ifs
  · refine h.of_eq ?_ rfl
    rw [home_of_page (s := s') (p := p) (x := (s'.page p).setBit .active) rfl, Page.setBit_chain]
    exact Function.update_eq_self p s'.home
  · exact h

end SetsCounter

/-- The counter is set to the number of the pages of the chain, which the bit of the page may then
    change. -/
theorem markPageAccessed_chain (h : s.Linked) (hp : s.home p = some c) (hm : s.chain c = some m)
    (heq : s.markPageAccessed p = .ok s') :
    s'.chain = Function.update s.chain c (some (m.accessed p (s.page p))) := by
  -- The counter follows from its excess, so that only the other fields are traced.
  suffices hk : SetsCounter s s' c { m with delegate := some p } by
    obtain ⟨k, hk⟩ := hk.chain_eq
    obtain ⟨s₁, heq₁, ht⟩ := markPageAccessed_spec h p
    obtain rfl := Except.ok.inj (heq₁.symm.trans heq)
    have he := ht.excess_eq c
    rw [if_pos hp, excess_of_chain (by rw [hk, Function.update_self]), refs, refs, ht.links_eq,
      bit_of_page ht.page_eq, countP_update (h.members.nodup c),
      if_pos ((h.members.mem_iff p c).2 hp), links_of_chain hm] at he
    rw [hk, MemoryChain.accessed, (h.chain c m hm).nrLinks_eq]
    have hkk : k = (m.links.length : ℤ) + (s.page p).accessed.referenced.toNat -
        (s.page p).referenced.toNat := by
      rw [bit] at he
      linarith only [he]
    rw [hkk]
  obtain ⟨s₁, heq₁, heq⟩ := bind_eq_ok.1 heq
  obtain ⟨r, -, heq⟩ := bind_eq_ok.1 heq
  have h₁ : SetsCounter s s₁ c { m with delegate := some p } := by
    rw [resetCounter, show (s.page p).chain = some c from hp] at heq₁
    dsimp only at heq₁
    rw [modifyChain_eq hm] at heq₁
    obtain rfl := Except.ok.inj heq₁
    exact ⟨rfl, _, rfl⟩
  dsimp only at heq
  split_ifs at heq
  · obtain ⟨s₂, heq₂, heq⟩ := bind_eq_ok.1 heq
    exact (h₁.setPageReferenced hp heq₂ |>.activatePage p).clearPageReferenced hp heq
  · rw [ok_bind] at heq
    exact (h₁.activatePage p).clearPageReferenced hp heq
  · exact h₁.setPageReferenced hp heq
  · exact Except.ok.inj heq ▸ h₁

theorem activatePage_chain (s : Mm) (p : PageRef) : (s.activatePage p).chain = s.chain := by
  rw [activatePage]
  split_ifs <;> rfl

/-- A page without a chain changes none. -/
theorem markPageAccessed_chain_of_none (hp : s.home p = none) (heq : s.markPageAccessed p = .ok s') :
    s'.chain = s.chain := by
  have hset : ∀ {s₁ s₂ : Mm}, s₁.home p = none → s₁.setPageReferenced p = .ok s₂ →
      s₂.home p = none ∧ s₂.chain = s₁.chain := fun {s₁ s₂} h₁ h₂ => by
    rw [setPageReferenced] at h₂
    simp only [modifyPage_self, Page.setBit_chain] at h₂
    rw [show (s₁.page p).chain = none from h₁] at h₂
    obtain rfl := Except.ok.inj h₂
    exact ⟨by rwa [home, modifyPage_self, Page.setBit_chain], rfl⟩
  have hclear : ∀ {s₁ s₂ : Mm}, s₁.home p = none → s₁.clearPageReferenced p = .ok s₂ →
      s₂.chain = s₁.chain := fun {s₁ s₂} h₁ h₂ => by
    rw [clearPageReferenced] at h₂
    simp only [modifyPage_self, Page.clearBit_chain] at h₂
    rw [show (s₁.page p).chain = none from h₁] at h₂
    obtain rfl := Except.ok.inj h₂
    rfl
  have hactivate : ∀ {s₁ : Mm}, s₁.home p = none → (s₁.activatePage p).home p = none :=
    fun {s₁} h₁ => by
      rw [activatePage]
      split_ifs
      · change (Function.update s₁.page p _ p).chain = none
        rw [Function.update_self]
        exact h₁
      · exact h₁
  obtain ⟨s₁, heq₁, heq⟩ := bind_eq_ok.1 heq
  obtain ⟨r, -, heq⟩ := bind_eq_ok.1 heq
  rw [resetCounter, show (s.page p).chain = none from hp] at heq₁
  obtain rfl := Except.ok.inj heq₁
  dsimp only at heq
  split_ifs at heq
  · obtain ⟨s₂, heq₂, heq⟩ := bind_eq_ok.1 heq
    obtain ⟨h₂, hchain⟩ := hset hp heq₂
    rw [hclear (hactivate h₂) heq, activatePage_chain, hchain]
  · rw [ok_bind] at heq
    rw [hclear (hactivate hp) heq, activatePage_chain]
  · exact (hset hp heq).2
  · exact Except.ok.inj heq ▸ rfl

/-- The chains that are allocated stay so. -/
theorem markPageAccessed_live (h : s.Linked) (heq : s.markPageAccessed p = .ok s') (c : ChainRef) :
    (∃ m, s'.chain c = some m) ↔ ∃ m, s.chain c = some m := by
  cases hp : s.home p with
  | none => rw [markPageAccessed_chain_of_none hp heq]
  | some d =>
    obtain ⟨m, hm, -⟩ := h.live hp
    rw [markPageAccessed_chain h hp hm heq]
    by_cases hd : c = d
    · rw [hd, Function.update_self, hm]
      exact iff_of_true ⟨_, rfl⟩ ⟨_, rfl⟩
    · rw [Function.update_of_ne hd]

end Mm

end Mcpq.Kernel
