import Mcpq.Kernel.Structure

/-!
# Pages visited in a range

What the pages of a range leave on the chain they are linked to (`mlinkFound_chain`), and what the
pages visited so far do: they are on the chain (`mlinkPages_spec`), and the anchor is the page visited
last at the address of the anchor, if there is one (`Anchors`).
-/

namespace Mcpq.Kernel

/-- The chain after its page `p`, which was `x`, is visited: it is the anchor if `anchored` is set. -/
def MemoryChain.visited (m : MemoryChain) (anchored : Bool) (p : PageRef) (x : Page) : MemoryChain :=
  { m with anchor := if anchored then some p else m.anchor }.accessed p x

namespace Mm

variable {s s' s₁ : Mm} {p q : PageRef} {c d : ChainRef} {m m' : MemoryChain} {x : Page}
  {anchor addr : ℕ} {l : List (ℕ × PageRef)} {lookup : ℕ → Option PageRef}

/-! ## Addresses -/

theorem mem_found_iff {addrs : List ℕ} {x : ℕ × PageRef} :
    x ∈ found lookup addrs ↔ lookup x.1 = some x.2 ∧ x.1 ∈ addrs := by
  refine ⟨mem_found, fun ⟨hx, ha⟩ => List.mem_filterMap.2 ⟨x.1, ha, ?_⟩⟩
  rw [hx]
  rfl

/-- The pages are found in the order of their addresses. -/
theorem found_sorted (lookup : ℕ → Option PageRef) {addrs : List ℕ} (h : addrs.Pairwise (· < ·)) :
    (found lookup addrs).Pairwise (·.1 < ·.1) := by
  refine h.filterMap _ fun a b hab x hx y hy => ?_
  obtain ⟨p, -, rfl⟩ := Option.map_eq_some_iff.1 hx
  obtain ⟨q, -, rfl⟩ := Option.map_eq_some_iff.1 hy
  exact hab

theorem pageMask_spec (addr : ℕ) :
    pageSize ∣ pageMask addr ∧ pageMask addr ≤ addr ∧ addr < pageMask addr + pageSize := by
  rw [pageMask, pageSize]
  omega

/-- The page that contains an address: there is none outside the memory areas. -/
def pageAt (vmas : List Vma) (lookup : ℕ → Option PageRef) (addr : ℕ) : Option PageRef :=
  if ∃ v ∈ vmas, v.vmStart ≤ addr ∧ addr < v.vmEnd then lookup (pageMask addr) else none

/-! ## A page -/

variable [Mlock]

/-- A page is linked to its chain, or is on it. -/
theorem linkPage_chain (h : s.Linked) (hm : s.chain c = some m) (heq : s.linkPage c p = .ok s') :
    ∃ n : MemoryChain, s'.chain = Function.update s.chain c (some n) ∧ n.anchor = m.anchor ∧
      (s.home p = some c → n = m) := by
  cases hp : s.home p with
  | none =>
    obtain rfl := Except.ok.inj ((linkPage_of_none h hp hm).symm.trans heq)
    exact ⟨_, rfl, rfl, fun hc => absurd hc (Option.some_ne_none c).symm⟩
  | some d =>
    by_cases hd : d = c
    · subst hd
      rw [linkPage_of_mem hp] at heq
      obtain rfl := Except.ok.inj heq
      exact ⟨m, by rw [← hm, Function.update_eq_self], rfl, fun _ => rfl⟩
    · rw [linkPage_of_other h hp hd] at heq
      cases heq

/-- What a page that is linked leaves on the chain; `n` is the chain with the page on it. -/
theorem mlinkPage_chain (h : s.Linked) (hm : s.chain c = some m) (halloc : s.allocated p = true)
    (heq : s.mlinkPage c anchor addr p = .ok s') :
    ∃ n : MemoryChain, s'.chain = Function.update s.chain c (some (n.visited
      (decide (addr = anchor)) p (linkedTo c (decide (addr = anchor)) (s.page p)))) ∧
      n.anchor = m.anchor ∧ (s.home p = some c → n = m) := by
  obtain ⟨s₁, heq₁, heq⟩ := bind_eq_ok.1 heq
  obtain ⟨-, h₁⟩ := linkPage_ok h hm halloc heq₁
  obtain ⟨n, hn, hanchor, hself⟩ := linkPage_chain h hm heq₁
  have hp₁ : s₁.home p = some c := by rw [home_of_page h₁.page_eq, Function.update_self]
  have hn₁ : s₁.chain c = some n := by rw [hn, Function.update_self]
  obtain ⟨s₂, heq₂, heq⟩ := bind_eq_ok.1 heq
  obtain ⟨h₂, hchain₂⟩ := anchorPage_spec h₁.linked hp₁ heq₂
  have hpage₂ : s₂.page p = linkedTo c (decide (addr = anchor)) (s.page p) := by
    rw [h₂.page_self, linkedTo, h₁.page_eq, Function.update_self]
    simp only [decide_eq_true_eq]
  have hp₂ : s₂.home p = some c := by rw [home, hpage₂, linkedTo_chain]
  have hm₂ := hchain₂ n hn₁
  refine ⟨n, ?_, hanchor, hself⟩
  rw [markPageAccessed_chain h₂.linked hp₂ (by rw [hm₂, Function.update_self]) heq, hm₂, hn,
    Function.update_idem, Function.update_idem, hpage₂, MemoryChain.visited]
  simp only [decide_eq_true_eq]

/-- What a page that is found leaves on the chain. It has been marked before, which sets the counter and
    the delegate that are set again. -/
theorem mlinkFound_chain (h : s.Linked) (hm : s.chain c = some m) (halloc : s.allocated p = true)
    (heq : s.mlinkFound c anchor addr p = .ok s') :
    ∃ n : MemoryChain, s'.chain = Function.update s.chain c (some (n.visited
      (decide (addr = anchor)) p (s.linkedPage c (decide (addr = anchor)) p))) ∧
      n.anchor = m.anchor ∧ (s.home p = some c → n = m) := by
  have hhome := (mlinkFound_spec h hm halloc heq).home
  obtain ⟨t, heq₀, heq⟩ := bind_eq_ok.1 heq
  obtain ⟨t', ht, h₀⟩ := markPageAccessed_spec h p
  obtain rfl := Except.ok.inj (heq₀.symm.trans ht)
  have halloc₀ : t.allocated p = true := h₀.allocated_eq ▸ halloc
  have hhome₀ : t.home = s.home := h₀.home_eq (Page.accessed_chain _)
  rcases hhome with hp | hp
  · have hchain := markPageAccessed_chain_of_none hp heq₀
    obtain ⟨n, hn, hanchor, -⟩ := mlinkPage_chain h₀.linked (hchain ▸ hm) halloc₀ heq
    rw [h₀.page_self, hchain] at hn
    exact ⟨n, hn, hanchor, fun hc => absurd (hp.symm.trans hc) (Option.some_ne_none c).symm⟩
  · have hchain := markPageAccessed_chain h hp hm heq₀
    obtain ⟨n, hn, -, hself⟩ := mlinkPage_chain h₀.linked (by rw [hchain, Function.update_self])
      halloc₀ heq
    obtain rfl := hself (hhome₀ ▸ hp)
    rw [h₀.page_self, hchain, Function.update_idem] at hn
    exact ⟨m, hn, rfl, fun _ => rfl⟩

/-! ## The pages of a range -/

/-- What is known once the pages `l` of a range have been visited: they are on the chain `c`, and the
    anchor is the last one at the address of the anchor. -/
structure Visited (s : Mm) (c : ChainRef) (anchor : ℕ) (l : List (ℕ × PageRef)) (s' : Mm) : Prop where
  linked : s'.Linked
  home_eq : ∀ q, s'.home q = if q ∈ l.map Prod.snd then some c else s.home q
  homes : ∀ x ∈ l, s.home x.2 = none ∨ s.home x.2 = some c
  allocated_eq : s'.allocated = s.allocated
  chain_eq : ∀ m, s.chain c = some m → ∃ m', s'.chain = Function.update s.chain c (some m') ∧
    ((∃ x ∈ l, x.1 = anchor ∧ m'.anchor = some x.2) ∨
      (∀ x ∈ l, x.1 ≠ anchor) ∧ m'.anchor = m.anchor)

namespace Visited

omit [Mlock] in
theorem nil (h : s.Linked) : Visited s c anchor [] s where
  linked := h
  home_eq _ := (if_neg List.not_mem_nil).symm
  homes _ hx := absurd hx List.not_mem_nil
  allocated_eq := rfl
  chain_eq m hm := ⟨m, by rw [← hm, Function.update_eq_self],
    .inr ⟨fun _ hx => absurd hx List.not_mem_nil, rfl⟩⟩

/-- A page is visited. -/
theorem step {y : ℕ × PageRef} (h : Visited s c anchor l s') (hm : s.chain c = some m)
    (halloc : s.allocated y.2 = true) (heq : s'.mlinkFound c anchor y.1 y.2 = .ok s₁) :
    Visited s c anchor (l ++ [y]) s₁ := by
  obtain ⟨m', hchain, hanchor⟩ := h.chain_eq m hm
  have hm' : s'.chain c = some m' := by rw [hchain, Function.update_self]
  have halloc' : s'.allocated y.2 = true := by rw [h.allocated_eq, halloc]
  have hy := mlinkFound_spec h.linked hm' halloc' heq
  obtain ⟨n, hn, hnm, -⟩ := mlinkFound_chain h.linked hm' halloc' heq
  refine ⟨hy.linked, fun q => ?_, fun x hx => ?_, hy.allocated_eq.trans h.allocated_eq,
    fun m₀ hm₀ => ?_⟩
  · rw [home_of_page hy.page_eq, Page.accessed_chain, linkedPage_chain]
    by_cases hq : q = y.2
    · have hmem : q ∈ (l ++ [y]).map Prod.snd :=
        List.mem_map.2 ⟨y, List.mem_append_right l List.mem_cons_self, hq.symm⟩
      rw [if_pos hmem, hq, Function.update_self]
    · have hmem : q ∈ (l ++ [y]).map Prod.snd ↔ q ∈ l.map Prod.snd := by
        rw [List.map_append, List.mem_append, List.map_singleton, List.mem_singleton]
        exact or_iff_left hq
      rw [Function.update_of_ne hq, h.home_eq, if_congr hmem rfl rfl]
  · -- A page visited before stays on the chain.
    rcases List.mem_append.1 hx with hx | hx
    · exact h.homes x hx
    · obtain rfl := List.mem_singleton.1 hx
      have hhome := hy.home
      rw [h.home_eq] at hhome
      split_ifs at hhome with hmem
      · obtain ⟨z, hz, hzx⟩ := List.mem_map.1 hmem
        rw [← hzx]
        exact h.homes z hz
      · exact hhome
  · obtain rfl : m = m₀ := Option.some.inj (hm.symm.trans hm₀)
    refine ⟨_, by rw [hn, hchain, Function.update_idem], ?_⟩
    -- The page becomes the anchor if it is visited at the address of the anchor.
    by_cases hy' : y.1 = anchor
    · refine .inl ⟨y, List.mem_append_right l List.mem_cons_self, hy', ?_⟩
      exact if_pos (decide_eq_true hy')
    · have hkeep : (n.visited (decide (y.1 = anchor)) y.2
          (s'.linkedPage c (decide (y.1 = anchor)) y.2)).anchor = m'.anchor :=
        (if_neg (by simpa using hy')).trans hnm
      rw [hkeep]
      refine hanchor.imp (fun ⟨x, hx, ha⟩ => ⟨x, List.mem_append_left _ hx, ha⟩) fun ⟨hne, ha⟩ =>
        ⟨fun x hx => ?_, ha⟩
      rcases List.mem_append.1 hx with hx | hx
      · exact hne x hx
      · exact List.mem_singleton.1 hx ▸ hy'

end Visited

/-- A range is linked to a chain that is allocated. -/
theorem mlinkPages_visited (h : s.Linked) (hm : s.chain c = some m)
    (halloc : ∀ x ∈ l, s.allocated x.2 = true) (heq : s.mlinkPages c anchor l = .ok s') :
    Visited s c anchor l s' :=
  foldlM_run (Visited s c anchor) (fun _ y _ _ hy hv heq => hv.step hm (halloc y hy) heq) (.nil h) heq

end Mm

end Mcpq.Kernel
