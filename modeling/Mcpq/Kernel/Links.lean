import Mcpq.Kernel.Linked
import Mcpq.Lib.Loop

/-!
# Linking and unlinking

What the functions that link and unlink pages do to the structure of the chains, and to the excess of
their counters: a page is linked (`linkPage_spec`) and unlinked (`unlinkPage_spec`) together with its
reference, and all the pages of a chain are unlinked, when it is broken, released, or dropped by the
exit of a task (`Clears`).

Linking a page of another chain fails (`linkPage_of_other`): the page has been unlinked when the lock
of its chain is to be released.
-/

namespace Mcpq.Kernel.Mm

variable {s s' s₁ : Mm} {p q : PageRef} {c d : ChainRef} {m m' : MemoryChain} {x : Page}

/-- What a function does that links or unlinks the page `p`, which becomes `x`: the lists of the
    chains become `l`. -/
structure Relinks (s s' : Mm) (p : PageRef) (x : Page) (l : ChainRef → List PageRef) : Prop where
  linked : s'.Linked
  page_eq : s'.page = Function.update s.page p x
  links_eq : s'.links = l
  allocated_eq : s'.allocated = s.allocated
  excess_eq : ∀ c, s'.excess c = s.excess c

theorem links_of_update (h : s'.chain = Function.update s.chain c (some m')) :
    s'.links = Function.update s.links c m'.links := by
  have := links_setChain s c (some m')
  rw [Option.elim_some] at this
  rw [← this]
  funext d
  rw [links, links, h]
  rfl

/-- The structure and the excess, after an update of the page `p` and of the chain `c` that moves the
    reference of the page. -/
theorem Linked.relink (h : s.Linked) (hm : s.chain c = some m) (x : Page) (m' : MemoryChain)
    (hpage : s'.page = Function.update s.page p x)
    (hchain : s'.chain = Function.update s.chain c (some m'))
    (halloc : s'.allocated = s.allocated)
    (hmem : Members s'.home (Function.update s.links c m'.links)) (hok : m'.Ok)
    (hfree : s.allocated p = false → x.chain = none) (hx : x.referenced = s.bit p)
    (hrefs : m'.refCounter - m.refCounter =
      (m'.links.countP s.bit : ℤ) - (m.links.countP s.bit : ℤ)) :
    Relinks s s' p x (Function.update s.links c m'.links) := by
  have hlinks := links_of_update hchain
  have hbit : s'.bit = s.bit := by rw [bit_of_page hpage, hx, Function.update_eq_self]
  refine ⟨⟨hlinks ▸ hmem, fun d n hn => ?_, fun q hq => ?_, halloc ▸ h.few⟩, hpage, hlinks, halloc,
    fun d => ?_⟩
  · rw [hchain] at hn
    by_cases hd : d = c
    · rw [hd, Function.update_self] at hn
      exact Option.some.inj hn ▸ hok
    · rw [Function.update_of_ne hd] at hn
      exact h.chain d n hn
  · rw [halloc] at hq
    rw [home_of_page hpage]
    by_cases hqp : q = p
    · rw [hqp, Function.update_self]
      exact hfree (hqp ▸ hq)
    · rw [Function.update_of_ne hqp]
      exact h.free q hq
  · by_cases hd : d = c
    · have hm' : s'.chain c = some m' := by rw [hchain, Function.update_self]
      rw [hd, excess_of_chain hm', excess_of_chain hm, refs, refs, links_of_chain hm',
        links_of_chain hm, hbit]
      linarith only [hrefs]
    · exact excess_congr (by rw [hchain, Function.update_of_ne hd]) fun q _ => by rw [hbit]

/-- When a page is unlinked, no chain gets a reference. -/
theorem Relinks.refs_le (h : s.Linked) (hp : s.home p = some c)
    (h' : Relinks s s' p x (Function.update s.links c ((s.links c).erase p))) (d : ChainRef) :
    s'.refs d ≤ s.refs d := by
  have hsub : (s'.links d).Sublist (s.links d) := by
    rw [h'.links_eq]
    by_cases hd : d = c
    · rw [hd, Function.update_self]
      exact List.erase_sublist
    · rw [Function.update_of_ne hd]
  have hne : ∀ q ∈ s'.links d, q ≠ p := fun q hq hqp => by
    obtain rfl : d = c := h.members.eq_of_mem (hqp ▸ hsub.subset hq) ((h.members.mem_iff p c).2 hp)
    rw [h'.links_eq, Function.update_self, hqp] at hq
    exact ((h.members.nodup d).mem_erase_iff.1 hq).1 rfl
  calc s'.refs d = (s'.links d).countP s.bit := List.countP_congr fun q hq => by
        rw [bit_of_page h'.page_eq, Function.update_of_ne (hne q hq)]
    _ ≤ s.refs d := hsub.countP_le

variable [Mlock]

/-- A page on a chain is unlinked; it is unlocked if it is the anchor. -/
theorem unlinkPage_spec (h : s.Linked) (hp : s.home p = some c) :
    ∃ s' x, s.unlinkPage p = .ok s' ∧ x.chain = none ∧
      Relinks s s' p x (Function.update s.links c ((s.links c).erase p)) := by
  obtain ⟨m, hm, hpm⟩ := h.live hp
  have hok := h.chain c m hm
  have hnd : m.links.Nodup := links_of_chain hm ▸ h.members.nodup c
  -- The page may be unlocked, but its reference is kept.
  obtain ⟨s₁, hs₁⟩ : ∃ s₁, (if m.anchor = some p then s.modifyPage p Mlock.munlockVmaPage else s) =
      s₁ := ⟨_, rfl⟩
  obtain ⟨hchain, halloc, y, hpage, hyref⟩ : s₁.chain = s.chain ∧ s₁.allocated = s.allocated ∧
      ∃ y : Page, s₁.page = Function.update s.page p y ∧ y.referenced = s.bit p := by
    subst hs₁
    split_ifs
    · exact ⟨rfl, rfl, _, rfl, Mlock.munlock_referenced _⟩
    · exact ⟨rfl, rfl, s.page p, (Function.update_eq_self ..).symm, rfl⟩
  have hyp : s₁.page p = y := by rw [hpage, Function.update_self]
  obtain ⟨m', hm'⟩ : ∃ m' : MemoryChain, m' = { m with
      links := m.links.erase p
      anchor := if m.anchor = some p then none else m.anchor
      delegate := if m.delegate = some p then none else m.delegate
      nrLinks := m.nrLinks - 1
      refCounter := if y.referenced then m.refCounter - 1 else m.refCounter } := ⟨_, rfl⟩
  have hrun : s.unlinkPage p =
      .ok ((s₁.setChain c (some m')).modifyPage p fun p => { p with chain := none }) := by
    rw [unlinkPage, show (s.page p).chain = some c from hp]
    dsimp only
    rw [derefChain_eq_ok.2 hm, ok_bind, listDel, if_pos hpm, ok_bind]
    dsimp only
    rw [hs₁, hyp, ← hm', resetPage, Bool.false_and, if_neg Bool.false_ne_true]
  have hmem := h.members.detach hp
  have hl : m'.links = m.links.erase p := by rw [hm']
  have hpage' : ((s₁.setChain c (some m')).modifyPage p fun p => { p with chain := none }).page =
      Function.update s.page p { y with chain := none } := by
    change Function.update s₁.page p { s₁.page p with chain := none } = _
    rw [hyp, hpage, Function.update_idem]
  rw [links_of_chain hm, ← hl] at hmem ⊢
  refine ⟨_, { y with chain := none }, hrun, rfl, h.relink hm _ m' hpage' ?_ halloc ?_ ?_
    (fun _ => rfl) hyref ?_⟩
  · change Function.update s₁.chain c _ = _
    rw [hchain]
  · rwa [home_of_page hpage']
  · subst hm'
    refine ⟨hok.attributes_eq, ?_, fun q hq => ?_, fun q hq => ?_⟩
    · have := List.length_pos_of_mem hpm
      dsimp only
      rw [List.length_erase_of_mem hpm, hok.nrLinks_eq]
      omega
    · dsimp only at hq
      split_ifs at hq with ha
      exact (hnd.mem_erase_iff).2 ⟨fun hqp => ha (hqp ▸ hq), hok.anchor_mem q hq⟩
    · dsimp only at hq
      split_ifs at hq with ha
      exact (hnd.mem_erase_iff).2 ⟨fun hqp => ha (hqp ▸ hq), hok.delegate_mem q hq⟩
  · rw [hl, countP_erase_of_mem s.bit hpm, hm', hyref]
    cases s.bit p
    all_goals simp

theorem linkPage_of_mem (hp : s.home p = some c) : s.linkPage c p = .ok s := by
  rw [linkPage]
  exact if_pos hp

/-- A page of another chain is not linked: the function dereferences the chain of the page after the
    page has been unlinked. -/
theorem linkPage_of_other (h : s.Linked) (hp : s.home p = some d) (hd : d ≠ c) :
    s.linkPage c p = .error .nullPointer := by
  obtain ⟨s', x, heq, hx, hs'⟩ := unlinkPage_spec h hp
  have hchain : (s'.page p).chain = none := by rw [hs'.page_eq, Function.update_self, hx]
  have hne : (s.page p).chain ≠ some c := fun hc => hd (Option.some.inj (hp.symm.trans hc))
  rw [linkPage, if_neg hne, unlinkFromOther, show (s.page p).chain = some d from hp]
  simp only [heq, ok_bind, hchain, error_bind]

/-- Pages are linked only to a chain that is allocated. -/
theorem linkPage_live (h : s.Linked) (heq : s.linkPage c p = .ok s') :
    ∃ m, s.chain c = some m := by
  cases hp : s.home p with
  | none =>
    have hne : (s.page p).chain ≠ some c := fun hc => by cases hp.symm.trans hc
    rw [linkPage, if_neg hne, unlinkFromOther, show (s.page p).chain = none from hp] at heq
    dsimp only at heq
    rw [ok_bind] at heq
    obtain ⟨m, hm, -⟩ := bind_eq_ok.1 heq
    exact ⟨m, derefChain_eq_ok.1 hm⟩
  | some d =>
    by_cases hd : d = c
    · subst hd
      obtain ⟨m, hm, -⟩ := h.live hp
      exact ⟨m, hm⟩
    · rw [linkPage_of_other h hp hd] at heq
      cases heq

/-- A page without a chain is linked, as no chain is full. -/
theorem linkPage_of_none (h : s.Linked) (hp : s.home p = none) (hm : s.chain c = some m) :
    s.linkPage c p = .ok ((s.modifyPage p fun x => { x with chain := some c }).setChain c
      (some { m with
        links := p :: m.links
        nrLinks := m.nrLinks + 1
        refCounter := if s.bit p then m.refCounter + 1 else m.refCounter })) := by
  have hne : (s.page p).chain ≠ some c := fun hc => by cases hp.symm.trans hc
  rw [linkPage, if_neg hne, unlinkFromOther, show (s.page p).chain = none from hp]
  simp only [ok_bind, derefChain_eq_ok.2 hm, (h.chain c m hm).isFull_eq, Bool.false_eq_true, if_false]
  rw [modifyPage_self]
  rfl

/-- What linking a page without a chain does to the lists. -/
theorem linkPage_spec (h : s.Linked) (hp : s.home p = none) (hm : s.chain c = some m)
    (halloc : s.allocated p = true) :
    ∃ s', s.linkPage c p = .ok s' ∧ Relinks s s' p { s.page p with chain := some c }
      (Function.update s.links c (p :: s.links c)) := by
  have hok := h.chain c m hm
  have hpm : p ∉ m.links := links_of_chain hm ▸ h.members.not_mem hp
  obtain ⟨m', hm'⟩ : ∃ m' : MemoryChain, m' = { m with
      links := p :: m.links
      nrLinks := m.nrLinks + 1
      refCounter := if s.bit p then m.refCounter + 1 else m.refCounter } := ⟨_, rfl⟩
  have hl : m'.links = p :: m.links := by rw [hm']
  have hrun : s.linkPage c p =
      .ok ((s.modifyPage p fun x => { x with chain := some c }).setChain c (some m')) := by
    rw [linkPage_of_none h hp hm, hm']
  have hmem := h.members.attach hp c
  rw [links_of_chain hm, ← hl] at hmem ⊢
  refine ⟨_, hrun, h.relink hm _ m' rfl rfl rfl ?_ ?_ (fun hf => ?_) rfl ?_⟩
  · rwa [home_of_page (s := s) rfl]
  · subst hm'
    refine ⟨hok.attributes_eq, ?_, fun q hq => List.mem_cons_of_mem p (hok.anchor_mem q hq),
      fun q hq => List.mem_cons_of_mem p (hok.delegate_mem q hq)⟩
    dsimp only
    rw [List.length_cons, hok.nrLinks_eq]
    rfl
  · rw [halloc] at hf
    cases hf
  · rw [hl, List.countP_cons, hm']
    cases s.bit p
    all_goals simp

/-! ## All the pages of a chain -/

/-- What a function does that unlinks all the pages of the chain `c`, which becomes `m'`, if it is not
    freed. -/
structure Clears (s s' : Mm) (c : ChainRef) (m' : Option MemoryChain) : Prop where
  home_eq : s'.home = fun q => if q ∈ s.links c then none else s.home q
  bit_eq : ∀ q, q ∉ s.links c → s'.bit q = s.bit q
  chain_eq : s'.chain = Function.update s.chain c m'
  allocated_eq : s'.allocated = s.allocated

namespace Clears

variable {n n' : Option MemoryChain}

omit [Mlock]

theorem setChain (h : Clears s s' c n) (n' : Option MemoryChain) :
    Clears s (s'.setChain c n') c n' where
  home_eq := h.home_eq
  bit_eq := h.bit_eq
  chain_eq := by
    change Function.update s'.chain c n' = _
    rw [h.chain_eq, Function.update_idem]
  allocated_eq := h.allocated_eq

theorem modifyPage (h : Clears s s' c n) {f : Page → Page}
    (hf : (f (s'.page p)).chain = (s'.page p).chain)
    (href : (f (s'.page p)).referenced = (s'.page p).referenced) :
    Clears s (s'.modifyPage p f) c n where
  home_eq := by
    rw [home_of_page (s := s') rfl, hf, ← h.home_eq]
    exact Function.update_eq_self p s'.home
  bit_eq q hq := by
    rw [bit_of_page (s := s') rfl, href, ← h.bit_eq q hq]
    exact congrFun (Function.update_eq_self p s'.bit) q
  chain_eq := h.chain_eq
  allocated_eq := h.allocated_eq

theorem links_eq (h : Clears s s' c n) (hn : ∀ m, n = some m → m.links = []) :
    s'.links = Function.update s.links c [] := by
  have := links_setChain s c n
  rw [show n.elim [] MemoryChain.links = [] by
    cases n with
    | none => rfl
    | some m => exact hn m rfl] at this
  rw [← this]
  funext d
  rw [links, links, h.chain_eq]
  rfl

theorem linked (hc : Clears s s' c n) (h : s.Linked) (hn : ∀ m, n = some m → m.links = [])
    (hok : ∀ m, n = some m → m.Ok) : s'.Linked where
  members := by
    rw [hc.home_eq, hc.links_eq hn]
    exact h.members.clear c
  chain d m hm := by
    rw [hc.chain_eq] at hm
    by_cases hd : d = c
    · rw [hd, Function.update_self] at hm
      exact hok m hm
    · rw [Function.update_of_ne hd] at hm
      exact h.chain d m hm
  free q hq := by
    rw [hc.home_eq]
    dsimp only
    split_ifs
    · rfl
    · exact h.free q (hc.allocated_eq ▸ hq)
  few := hc.allocated_eq ▸ h.few

/-- The other chains do not change. -/
theorem excess_eq (hc : Clears s s' c n) (h : s.Linked) (hn : ∀ m, n = some m → m.links = [])
    (d : ChainRef) :
    s'.excess d = if d = c then n.elim 0 MemoryChain.refCounter else s.excess d := by
  split_ifs with hd
  · subst hd
    have hchain : s'.chain d = n := by rw [hc.chain_eq, Function.update_self]
    cases n with
    | none => exact excess_of_free hchain
    | some m =>
      rw [excess_of_chain hchain, refs, links_of_chain hchain, hn m rfl]
      simp
  · refine excess_congr (by rw [hc.chain_eq, Function.update_of_ne hd]) fun q hq => ?_
    exact hc.bit_eq q fun hqc => hd (h.members.eq_of_mem hq hqc)

end Clears

/-- In a loop that unlinks the pages of the chain `c`, which was `m`, the pages `done` have been
    unlinked. -/
structure Unlinking (s s' : Mm) (c : ChainRef) (m : MemoryChain) (done : List PageRef) : Prop where
  home_eq : s'.home = fun q => if q ∈ done then none else s.home q
  bit_eq : ∀ q, q ∉ done → s'.bit q = s.bit q
  chain_eq : ∃ rest k, m.links = done ++ rest ∧
    s'.chain = Function.update s.chain c (some { m with links := rest, refCounter := k })
  allocated_eq : s'.allocated = s.allocated

namespace Unlinking

variable {done rest : List PageRef}

omit [Mlock]

theorem init (hm : s.chain c = some m) : Unlinking s s c m [] where
  home_eq := by
    funext q
    exact (if_neg List.not_mem_nil).symm
  bit_eq _ _ := rfl
  chain_eq := ⟨m.links, m.refCounter, rfl, by rw [← hm, Function.update_eq_self]⟩
  allocated_eq := rfl

theorem chain (hu : Unlinking s s' c m done) (hl : m.links = done ++ rest) :
    ∃ k, s'.chain = Function.update s.chain c (some { m with links := rest, refCounter := k }) := by
  obtain ⟨rest', k, hl', hchain⟩ := hu.chain_eq
  obtain rfl : rest = rest' := List.append_cancel_left (hl.symm.trans hl')
  exact ⟨k, hchain⟩

theorem step (hu : Unlinking s s' c m done) (hl : m.links = done ++ p :: rest)
    (hx : x.chain = none) (hpage : s₁.page = Function.update s'.page p x) (k : ℤ)
    (hchain : s₁.chain = Function.update s'.chain c (some { m with links := rest, refCounter := k }))
    (halloc : s₁.allocated = s'.allocated) : Unlinking s s₁ c m (done ++ [p]) where
  home_eq := by
    rw [home_of_page hpage, hu.home_eq, hx]
    funext q
    by_cases hq : q = p
    · rw [hq, Function.update_self, if_pos (by simp)]
    · rw [Function.update_of_ne hq]
      simp [hq]
  bit_eq q hq := by
    rw [List.mem_append, List.mem_singleton, not_or] at hq
    rw [bit_of_page hpage, Function.update_of_ne hq.2, hu.bit_eq q hq.1]
  chain_eq := by
    obtain ⟨k', hk'⟩ := hu.chain hl
    refine ⟨rest, k, by rw [hl, List.append_assoc]; rfl, ?_⟩
    rw [hchain, hk', Function.update_idem]
  allocated_eq := halloc.trans hu.allocated_eq

theorem clears (hu : Unlinking s s' c m m.links) (hm : s.chain c = some m) :
    ∃ k, Clears s s' c (some { m with links := [], refCounter := k }) := by
  obtain ⟨k, hk⟩ := hu.chain (List.append_nil _).symm
  refine ⟨k, ?_, ?_, hk, hu.allocated_eq⟩
  · rw [links_of_chain hm]
    exact hu.home_eq
  · rw [links_of_chain hm]
    exact hu.bit_eq

/-- The next page of the loop is on the chain. -/
theorem next (hu : Unlinking s s' c m done) (h : s.Linked) (hm : s.chain c = some m)
    (hl : m.links = done ++ p :: rest) :
    (s'.page p).chain = some c ∧ ∃ k,
      s'.derefChain c = .ok { m with links := p :: rest, refCounter := k } := by
  have hnd : m.links.Nodup := links_of_chain hm ▸ h.members.nodup c
  have hpm : p ∈ m.links := by
    rw [hl]
    simp
  have hp : p ∉ done := fun hp => by
    rw [hl, List.nodup_append] at hnd
    exact hnd.2.2 p hp p List.mem_cons_self rfl
  refine ⟨?_, ?_⟩
  · have hhome : s'.home p = if p ∈ done then none else s.home p := congrFun hu.home_eq p
    rw [if_neg hp, (h.members.mem_iff p c).1 (links_of_chain hm ▸ hpm)] at hhome
    exact hhome
  · obtain ⟨k, hk⟩ := hu.chain hl
    exact ⟨k, derefChain_eq_ok.2 (by rw [hk, Function.update_self])⟩

end Unlinking

omit [Mlock] in
theorem listDel_head {rest : List PageRef} (hl : m.links = p :: rest) :
    listDel m p = .ok { m with links := rest } := by
  rw [listDel, hl, if_pos List.mem_cons_self, List.erase_cons_head]

omit [Mlock] in
theorem unlinkFromChain_spec (h : s.Linked) (hm : s.chain c = some m) {done rest : List PageRef}
    (hu : Unlinking s s' c m done) (hl : m.links = done ++ p :: rest) :
    ∃ s₁, s'.unlinkFromChain c p = .ok s₁ ∧ Unlinking s s₁ c m (done ++ [p]) := by
  obtain ⟨hp, k, hk⟩ := hu.next h hm hl
  rw [unlinkFromChain, hk, ok_bind, listDel_head rfl, ok_bind, resetPage]
  simp only [setChain_page, hp, modifyPage_self, Bool.true_and]
  cases hr : (s'.page p).referenced with
  | false =>
    refine ⟨_, if_neg ?_, hu.step hl rfl rfl k rfl rfl⟩
    rw [show Page.referenced { s'.page p with chain := none } = (s'.page p).referenced from rfl, hr]
    exact Bool.false_ne_true
  | true =>
    have hm₂ : (((s'.setChain c (some { m with links := rest, refCounter := k })).modifyPage p
        fun x => { x with chain := none }).modifyPage p (·.clearBit .referenced)).chain c =
          some { m with links := rest, refCounter := k } := setChain_self _
    refine ⟨_, (if_pos hr).trans (modifyChain_eq hm₂ _), hu.step hl (x := Page.clearBit
      { s'.page p with chain := none } .referenced) rfl ?_ (k - 1) ?_ rfl⟩
    · change Function.update (Function.update s'.page p _) p _ = _
      rw [Function.update_idem, modifyPage_self]
      rfl
    · change Function.update (Function.update s'.chain c _) c _ = _
      rw [Function.update_idem]

/-- The pages of a chain are unlinked. -/
theorem unlinkChain_spec (h : s.Linked) (hm : s.chain c = some m) :
    ∃ s' m', s.unlinkChain c = .ok s' ∧ Clears s s' c (some m') ∧ m'.links = [] ∧ m'.Ok ∧
      m'.refCounter = 0 := by
  obtain ⟨s₁, heq, hu⟩ := foldlM_ok (fun done s₁ => Unlinking s s₁ c m done) (l := m.links)
    (f := fun s page => s.unlinkFromChain c page)
    (fun done p rest hl s' hu => unlinkFromChain_spec h hm hu hl) (.init hm)
  obtain ⟨m₁, hatt, hc⟩ : ∃ m₁ : MemoryChain, m₁.attributes = none ∧ Clears s s₁ c (some m₁) := by
    obtain ⟨k, hc⟩ := hu.clears hm
    exact ⟨{ m with links := [], refCounter := k }, (h.chain c m hm).attributes_eq, hc⟩
  have hm₁ : s₁.derefChain c = .ok m₁ :=
    derefChain_eq_ok.2 (by rw [hc.chain_eq, Function.update_self])
  rw [unlinkChain, derefChain_eq_ok.2 hm, ok_bind, heq, ok_bind, hm₁, ok_bind]
  refine ⟨_, _, rfl, Clears.setChain (n := some m₁) ?_ _, rfl,
    ⟨hatt, rfl, fun _ hq => absurd hq.symm (by simp), fun _ hq => absurd hq.symm (by simp)⟩, rfl⟩
  cases m₁.anchor with
  | none => exact hc
  | some a => exact hc.modifyPage (Mlock.munlock_chain _) (Mlock.munlock_referenced _)

omit [Mlock] in
theorem unlinkChainFast_spec (h : s.Linked) (hm : s.chain c = some m) :
    ∃ s' m', s.unlinkChainFast c = .ok s' ∧ Clears s s' c (some m') := by
  obtain ⟨s₁, heq, hu⟩ := foldlM_ok (fun done s₁ => Unlinking s s₁ c m done) (l := m.links)
    (f := fun s page => do
      let m ← s.derefChain c
      let m ← listDel m page
      pure ((s.setChain c (some m)).modifyPage page fun p => { p with chain := none }))
    (fun done p rest hl s' hu => by
      obtain ⟨hp, k, hk⟩ := hu.next h hm hl
      rw [hk, ok_bind, listDel_head rfl, ok_bind]
      exact ⟨_, rfl, hu.step hl rfl rfl k rfl rfl⟩) (.init hm)
  obtain ⟨k, hc⟩ := hu.clears hm
  exact ⟨s₁, _, by rw [unlinkChainFast, derefChain_eq_ok.2 hm, ok_bind]; exact heq, hc⟩

omit [Mlock] in
/-- A chain without pages is freed. -/
theorem kfreeChain_spec (hc : Clears s s' c (some m)) :
    ∃ s₁, s'.kfreeChain c = .ok s₁ ∧ Clears s s₁ c none := by
  have hm : s'.derefChain c = .ok m :=
    derefChain_eq_ok.2 (by rw [hc.chain_eq, Function.update_self])
  rw [kfreeChain, hm, ok_bind]
  exact ⟨_, rfl, hc.setChain none⟩

end Mcpq.Kernel.Mm
