import Mcpq.Kernel.Links
import Mcpq.Lib.Transition

/-!
# System calls

What the system calls, the page allocator and the exit of a task do to the structure of the chains and
to the excess of their counters, and the transition system of the operations (`System`), of any number
of tasks, that run to completion one at a time.

Between these operations the rest of the kernel may do anything to the pages and to the LRU lists but
link pages or reference them.
-/

namespace Mcpq.Kernel

namespace Mm

variable {s s' s₁ : Mm} {p q : PageRef} {c d : ChainRef} {m m' : MemoryChain} {x : Page}

theorem Linked.setMcc (h : s.Linked) (tsk : TaskRef) (mcc : Option MemoryChainCollection) :
    (s.setMcc tsk mcc).Linked :=
  ⟨h.members, h.chain, h.free, h.few⟩

/-- A chain is allocated. -/
theorem Linked.newChain (h : s.Linked) (hc : s.chain c = none) (id : ℕ) :
    (s.setChain c (some { id })).Linked ∧
      (∀ d, (s.setChain c (some { id })).excess d = s.excess d) ∧
        ∀ d, (s.setChain c (some { id })).count d = s.count d := by
  have hlinks : s.links c = [] := by
    rw [links, hc]
    rfl
  have hcl : Clears s (s.setChain c (some { id })) c (some { id }) := by
    refine ⟨?_, fun _ _ => rfl, rfl, rfl⟩
    rw [hlinks]
    funext q
    exact (if_neg List.not_mem_nil).symm
  refine ⟨hcl.linked h (fun n hn => Option.some.inj hn ▸ rfl) fun n hn => Option.some.inj hn ▸
    ⟨rfl, rfl, fun _ hq => absurd hq.symm (by simp), fun _ hq => absurd hq.symm (by simp)⟩,
    fun d => ?_, fun d => ?_⟩
  · rw [hcl.excess_eq h fun n hn => Option.some.inj hn ▸ rfl]
    split_ifs with hd
    · rw [hd, excess_of_free hc]
      rfl
    · rfl
  · by_cases hd : d = c
    · rw [hd, count_of_chain (setChain_self _), count, hc]
      rfl
    · rw [count, count, setChain_of_ne _ hd]

theorem newMemChain_spec (h : s.Linked) {tsk : TaskRef} {r : ℤ} (hc : s.chain c = none)
    (heq : s.newMemChain tsk c = .ok (s', r)) : s'.Linked ∧ (∀ d, s'.excess d = s.excess d) ∧
      ∀ d, s'.count d = s.count d := by
  rw [newMemChain] at heq
  dsimp only at heq
  split_ifs at heq
  · obtain ⟨slot, -, heq⟩ := bind_eq_ok.1 heq
    split_ifs at heq
    obtain ⟨rfl, -⟩ := Prod.mk.inj (Except.ok.inj heq)
    obtain ⟨hl, he⟩ := h.newChain hc slot.toNat
    exact ⟨hl.setMcc _ _, he⟩
  · obtain ⟨rfl, -⟩ := Prod.mk.inj (Except.ok.inj heq)
    exact ⟨h.setMcc _ _, fun _ => rfl, fun _ => rfl⟩

/-- The pages of a chain that is allocated have been unlinked. -/
theorem unlinkChain_ok [Mlock] (h : s.Linked) (heq : s.unlinkChain c = .ok s') :
    ∃ m', Clears s s' c (some m') ∧ m'.links = [] ∧ m'.Ok ∧ m'.refCounter = 0 := by
  cases hm : s.chain c with
  | none =>
    rw [unlinkChain, derefChain, hm] at heq
    cases heq
  | some m =>
    obtain ⟨s₁, m', heq₁, hc, hm'⟩ := unlinkChain_spec h hm
    obtain rfl := Except.ok.inj (heq₁.symm.trans heq)
    exact ⟨m', hc, hm'⟩

/-- The counters of the other chains stay. -/
theorem Clears.count_eq {n : Option MemoryChain} (hc : Clears s s' c n)
    (hn : n.elim 0 MemoryChain.refCounter = 0) (d : ChainRef) :
    s'.count d = s.count d ∨ s'.count d = 0 := by
  rw [count, count, hc.chain_eq]
  by_cases hd : d = c
  · rw [hd, Function.update_self]
    exact .inr hn
  · rw [Function.update_of_ne hd]
    exact .inl rfl

theorem brkMemChain_spec [Mlock] (h : s.Linked) {tsk : TaskRef} {i : ℕ} {r : ℤ}
    (heq : s.brkMemChain tsk i = .ok (s', r)) :
    s'.Linked ∧ (∀ d, s'.excess d = s.excess d ∨ s'.excess d = 0) ∧
      ∀ d, s'.count d = s.count d ∨ s'.count d = 0 := by
  rcases brkMemChain_cases heq with ⟨-, rfl⟩ | ⟨x, -, heq₁⟩
  · exact ⟨h, fun _ => .inl rfl, fun _ => .inl rfl⟩
  · obtain ⟨m', hc, hnil, hok, hzero⟩ := unlinkChain_ok h heq₁
    refine ⟨hc.linked h (fun n hn => Option.some.inj hn ▸ hnil) fun n hn => Option.some.inj hn ▸ hok,
      fun d => ?_, hc.count_eq hzero⟩
    rw [hc.excess_eq h fun n hn => Option.some.inj hn ▸ hnil]
    split_ifs
    · exact .inr hzero
    · exact .inl rfl

/-- A chain whose pages have been unlinked is freed. -/
theorem Clears.freed (hc : Clears s s' c none) (h : s.Linked) :
    s'.Linked ∧ (∀ d, s'.excess d = s.excess d ∨ s'.excess d = 0) ∧
      ∀ d, s'.count d = s.count d ∨ s'.count d = 0 := by
  have hnone : ∀ {P : MemoryChain → Prop} (n : MemoryChain), (none : Option MemoryChain) = some n →
      P n := fun n hn => nomatch hn
  refine ⟨hc.linked h hnone hnone, fun d => ?_, hc.count_eq rfl⟩
  rw [hc.excess_eq h hnone]
  split_ifs
  · exact .inr rfl
  · exact .inl rfl

theorem rlsMemChain_spec [Mlock] (h : s.Linked) {tsk : TaskRef} {i : ℕ} {r : ℤ}
    (heq : s.rlsMemChain tsk i = .ok (s', r)) :
    s'.Linked ∧ (∀ d, s'.excess d = s.excess d ∨ s'.excess d = 0) ∧
      ∀ d, s'.count d = s.count d ∨ s'.count d = 0 := by
  rcases rlsMemChain_cases heq with ⟨-, rfl⟩ | ⟨x, s₁, s₂, -, heq₁, heq₂, rfl⟩
  · exact ⟨h, fun _ => .inl rfl, fun _ => .inl rfl⟩
  · obtain ⟨m', hc, -⟩ := unlinkChain_ok h heq₁
    obtain ⟨s₃, heq₃, hc'⟩ := kfreeChain_spec hc
    obtain rfl := Except.ok.inj (heq₃.symm.trans heq₂)
    obtain ⟨hl, he⟩ := hc'.freed h
    exact ⟨hl.setMcc _ _, he⟩

/-! ## Exit -/

theorem exitSlot_spec (h : s.Linked) {mcc : MemoryChainCollection} {i : ℕ}
    {r : MemoryChainCollection × Mm} (heq : exitSlot mcc i s = .ok r) :
    r.2.Linked ∧ (∀ d, r.2.excess d = s.excess d ∨ r.2.excess d = 0) ∧
      ∀ d, r.2.count d = s.count d ∨ r.2.count d = 0 := by
  rcases exitSlot_cases heq with rfl | ⟨c, m, s₁, -, hm, heq₁, heq₂, -⟩
  · exact ⟨h, fun _ => .inl rfl, fun _ => .inl rfl⟩
  · obtain ⟨s₃, m', heq₃, hc⟩ := unlinkChainFast_spec h (derefChain_eq_ok.1 hm)
    obtain rfl := Except.ok.inj (heq₃.symm.trans heq₁)
    obtain ⟨s₄, heq₄, hc'⟩ := kfreeChain_spec hc
    obtain hs₄ := Except.ok.inj (heq₄.symm.trans heq₂)
    exact hs₄ ▸ hc'.freed h

/-- A property of the collection and the memory that the exit keeps at each slot. -/
theorem exitSlots_invariant {I : MemoryChainCollection × Mm → Prop}
    (hI : ∀ mcc i s r, I (mcc, s) → exitSlot mcc i s = .ok r → I r) :
    ∀ {fuel i : ℕ} {mcc : MemoryChainCollection} {s : Mm} {r : MemoryChainCollection × Mm},
      I (mcc, s) → exitSlots fuel i mcc s = .ok r → I r := by
  intro fuel
  induction fuel with
  | zero =>
    intro i mcc s r hs heq
    rw [exitSlots] at heq
    split_ifs at heq
    exact Except.ok.inj heq ▸ hs
  | succ fuel ih =>
    intro i mcc s r hs heq
    rw [exitSlots] at heq
    split_ifs at heq
    · obtain ⟨r₁, heq₁, heq⟩ := bind_eq_ok.1 heq
      obtain ⟨r₂, heq₂, heq⟩ := bind_eq_ok.1 heq
      obtain ⟨r₃, heq₃, heq⟩ := bind_eq_ok.1 heq
      obtain ⟨r₄, heq₄, heq⟩ := bind_eq_ok.1 heq
      obtain ⟨r₅, heq₅, heq⟩ := bind_eq_ok.1 heq
      have h₁ := hI _ _ _ _ hs heq₁
      have h₂ := hI _ _ _ _ h₁ heq₂
      have h₃ := hI _ _ _ _ h₂ heq₃
      have h₄ := hI _ _ _ _ h₃ heq₄
      exact ih (hI _ _ _ _ h₄ heq₅) heq
    · exact Except.ok.inj heq ▸ hs

/-- A property of the memory that the exit keeps at each slot holds when the task is detached from its
    collection. -/
theorem doExit_invariant {I : Mm → Prop} {tsk : TaskRef}
    (hI : ∀ mcc i s r, I s → exitSlot mcc i s = .ok r → I r.2) (h : I s)
    (heq : s.doExit tsk = .ok s') : ∃ s₁, I s₁ ∧ s' = s₁.setMcc tsk none := by
  rcases doExit_cases heq with ⟨-, rfl⟩ | ⟨mcc, x, -, hx, rfl⟩
  · exact ⟨s, h, rfl⟩
  · exact ⟨x.2, exitSlots_invariant (I := fun r => I r.2) (fun mcc i s r => hI mcc i s r) h hx, rfl⟩

/-! ## The page allocator -/

/-- The page passes the check when it is freed. -/
def passes (s : Mm) (p : PageRef) : Bool := !(s.page p).unmapAnon.freePagesCheck.2

theorem modifyPage_modifyPage (s : Mm) (p : PageRef) (f g : Page → Page) :
    (s.modifyPage p f).modifyPage p g = s.modifyPage p fun x => g (f x) := by
  rw [modifyPage, modifyPage_self]
  simp only [modifyPage, Function.update_idem]

/-- The page is checked, and its flags are cleared if it passes. -/
theorem freePagesChecks_spec (h : s.Linked) (p : PageRef) :
    ∃ s₁, (s.modifyPage p Page.unmapAnon).freePagesChecks p 0 =
        (s₁, if s.passes p then 0 else 1) ∧ s₁.chain = s.chain ∧
      Touches s s₁ p (s.page p).unmapAnon.freePagesCheck.1 fun c => s.excess c +
        if s.home p = some c ∧ s.passes p = true then ((s.bit p).toNat : ℤ) else 0 := by
  have hchain : (s.page p).unmapAnon.freePagesCheck.1.chain = (s.page p).chain := by
    rw [Page.freePagesCheck_chain, Page.unmapAnon_chain]
  refine ⟨s.modifyPage p fun _ => (s.page p).unmapAnon.freePagesCheck.1, ?_, rfl,
    (h.touch hchain).congr rfl fun c => ?_⟩
  · rw [freePagesChecks, pow_zero, List.range_one, List.foldl_cons, List.foldl_nil]
    simp only [Nat.add_zero, modifyPage_self, modifyPage_modifyPage]
    by_cases hb : (s.page p).unmapAnon.freePagesCheck.2 = true
    · rw [if_pos hb, if_neg (by simp [passes, hb])]
    · rw [if_neg hb, if_pos (by simp [passes, hb])]
  · rw [Page.freePagesCheck_referenced, Page.unmapAnon_referenced, passes]
    cases (s.page p).unmapAnon.freePagesCheck.2
    · simp
    · simp [bit]

/-- A page is unlinked when it is freed, and its chain counts the eviction. -/
theorem unlinkFreed_spec [Mlock] (h : s.Linked) (p : PageRef) :
    ∃ s', s.unlinkFreed p = .ok s' ∧ s'.Linked ∧ s'.home p = none ∧
      s'.allocated = s.allocated ∧ (∀ c, s'.excess c = s.excess c) ∧
        ∀ c, s'.count c ≤ s.count c := by
  rw [unlinkFreed]
  cases hp : (s.page p).chain with
  | none => exact ⟨s, rfl, h, hp, rfl, fun _ => rfl, fun _ => le_rfl⟩
  | some c =>
    obtain ⟨m, hm, -⟩ := h.live hp
    have h₁ := h.setCounter hm { m with evictCnt := m.evictCnt + 1 } rfl
      ((h.chain c m hm).of_links rfl rfl rfl rfl (h.chain c m hm).delegate_mem) p
    obtain ⟨s', x, heq, hx, h₂⟩ := unlinkPage_spec (p := p) h₁.linked hp
    have hexcess : ∀ d, s'.excess d = s.excess d := fun d => by
      rw [h₂.excess_eq, h₁.excess_eq]
      split_ifs with hd
      · rw [hd, sub_self, add_zero]
      · rfl
    refine ⟨s', ?_, h₂.linked, ?_, h₂.allocated_eq, hexcess, fun d => ?_⟩
    · dsimp only
      rw [modifyChain_eq hm, ok_bind, heq]
    · rw [home_of_page h₂.page_eq, Function.update_self, hx]
    · have hrefs : s'.refs d ≤ s.refs d :=
        (h₂.refs_le h₁.linked hp d).trans_eq (refs_congr (by rw [h₁.links_eq]) fun _ _ => rfl)
      rw [count_eq, count_eq, hexcess]
      omega

/-- The reference of a page that is freed is lost: the counter of its chain still counts it. -/
theorem freePage_spec [Mlock] (h : s.Linked) (p : PageRef) :
    ∃ s', s.freePage p = .ok s' ∧ s'.Linked ∧ (∀ c, s'.excess c = s.excess c +
      if s.home p = some c ∧ s.passes p = true then ((s.bit p).toNat : ℤ) else 0) ∧
        ∀ c, s'.count c ≤ s.count c := by
  obtain ⟨s₁, heq, hchain, h₁⟩ := freePagesChecks_spec h p
  rw [freePage, freePagesPrepare, heq]
  cases hpass : s.passes p with
  | false =>
    exact ⟨s₁, rfl, h₁.linked, fun c => by rw [h₁.excess_eq, hpass],
      fun c => (count_congr hchain c).le⟩
  | true =>
    obtain ⟨s₂, heq₂, h₂, hhome, halloc, he, hcount⟩ := unlinkFreed_spec h₁.linked p
    simp only [if_true, ne_eq, not_true_eq_false, if_false, heq₂, ok_bind, pure_eq_ok]
    refine ⟨_, rfl, ⟨h₂.members, h₂.chain, fun q hq => ?_, fun q hq => ?_⟩, fun c => ?_,
      fun c => (hcount c).trans_eq (count_congr hchain c)⟩
    · by_cases hqp : q = p
      · rw [hqp]
        exact hhome
      · dsimp only at hq
        rw [Function.update_of_ne hqp] at hq
        exact h₂.free q hq
    · dsimp only at hq
      rw [Function.update_apply] at hq
      split_ifs at hq
      exact h₂.few q hq
    · refine (he c).trans ((h₁.excess_eq c).trans ?_)
      simp [hpass]

/-- A page that is with the page allocator is allocated. -/
theorem allocPage_spec (h : s.Linked) (hp : s.allocated p = false) (hlt : p < maxPages) :
    (s.allocPage p).Linked ∧ (∀ c, (s.allocPage p).excess c = s.excess c) ∧
      ∀ c, (s.allocPage p).count c = s.count c := by
  have hhome := h.free p hp
  have htouch : ∀ f : Page → Page, (f (s.page p)).chain = none →
      (s.modifyPage p f).Linked ∧ ∀ c, (s.modifyPage p f).excess c = s.excess c := fun f hf => by
    obtain ⟨hl, he⟩ := h.modifyPage (p := p) (f := f) (hf.trans hhome.symm)
    refine ⟨hl, fun c => ?_⟩
    rw [he, hhome]
    simp
  have hbad : (s.page p).checkNewPage.1.chain = none := by
    rw [Page.checkNewPage]
    split_ifs
    all_goals exact hhome
  rw [allocPage, prepNewPage]
  dsimp only
  by_cases hb : (s.page p).checkNewPage.2 = true
  · rw [if_pos hb, if_neg one_ne_zero]
    obtain ⟨hl, he⟩ := htouch (fun _ => (s.page p).checkNewPage.1) hbad
    exact ⟨hl, he, fun _ => rfl⟩
  · rw [if_neg hb, if_pos rfl]
    obtain ⟨hl, he⟩ := htouch (fun x => { x with count := 1, chain := none }) rfl
    refine ⟨⟨hl.members, hl.chain, fun q hq => ?_, fun q hq => ?_⟩, he, fun _ => rfl⟩
    · refine hl.free q ?_
      by_cases hqp : q = p
      · dsimp only at hq
        rw [hqp, Function.update_self] at hq
        cases hq
      · dsimp only at hq
        rwa [Function.update_of_ne hqp] at hq
    · by_cases hqp : q = p
      · exact hqp ▸ hlt
      · dsimp only at hq
        rw [Function.update_of_ne hqp] at hq
        exact hl.few q hq

end Mm

end Mcpq.Kernel
