import Mcpq.Kernel.Accessed
import Mcpq.Kernel.Calls

/-!
# Ranges of pages

The walk of an address range over the memory areas does not depend on the pages: a call that links a
range links the pages found at the addresses of the walk (`rangeAddrs`), one after the other
(`doMlinkPages_ok`), and marks each as accessed, before and after (`mlinkFound_spec`).
-/

namespace Mcpq.Kernel.Mm

variable {s s' s₁ : Mm} {p q : PageRef} {c d : ChainRef} {m m' : MemoryChain} {x : Page}
  {lookup : ℕ → Option PageRef} {anchor : ℕ}

/-- The addresses visited from the current area on. -/
def areaAddrs (stop : ℕ) : ℕ → List Vma → ℕ → List ℕ
  | fuel, vmas, at' =>
    if at' < stop then
      match fuel with
      | 0 => []
      | fuel + 1 =>
        match nextArea vmas at' with
        | [] => []
        | vma :: next =>
          if stop ≤ vma.vmStart then []
          else
            let e := if stop < vma.vmEnd then stop else vma.vmEnd
            let start := if at' < vma.vmStart then vma.vmStart else at'
            vmaAddrs vma start e ++ areaAddrs stop fuel (vma :: next) e
    else []

/-- The addresses visited in a range. -/
def rangeAddrs (vmas : List Vma) (start len : ℕ) : List ℕ :=
  let stop := (start + len) % addressSpace
  match findVma vmas start with
  | [] => []
  | vma :: next =>
    if stop ≤ vma.vmStart then [] else areaAddrs stop (next.length + 2) (vma :: next) start

/-- The pages found at addresses, with these addresses. -/
def found (lookup : ℕ → Option PageRef) (addrs : List ℕ) : List (ℕ × PageRef) :=
  addrs.filterMap fun addr => (lookup addr).map fun page => (addr, page)

/-- The page found at an address is marked as accessed, and linked. -/
def mlinkFound [Mlock] (s : Mm) (c : ChainRef) (anchor addr : ℕ) (page : PageRef) : Result Mm := do
  let s ← s.markPageAccessed page
  s.mlinkPage c anchor addr page

/-- The pages found are linked, one after the other. -/
def mlinkPages [Mlock] (s : Mm) (c : ChainRef) (anchor : ℕ) (l : List (ℕ × PageRef)) : Result Mm :=
  l.foldlM (fun s x => s.mlinkFound c anchor x.1 x.2) s

variable [Mlock]

theorem mlinkPages_append {l l' : List (ℕ × PageRef)} (h : s.mlinkPages c anchor l = .ok s₁)
    (h' : s₁.mlinkPages c anchor l' = .ok s') : s.mlinkPages c anchor (l ++ l') = .ok s' := by
  rw [mlinkPages, List.foldlM_append]
  rw [mlinkPages] at h
  rw [h]
  exact h'

theorem mlinkAddrs_ok {addrs : List ℕ} {r : ℤ}
    (h : s.mlinkAddrs lookup c anchor addrs = .ok (s', r)) :
    s.mlinkPages c anchor (found lookup addrs) = .ok s' := by
  rw [mlinkAddrs] at h
  generalize (0 : ℤ) = n at h
  induction addrs generalizing s n with
  | nil =>
    obtain ⟨rfl, -⟩ := Prod.mk.inj (Except.ok.inj h)
    rfl
  | cons addr addrs ih =>
    rw [List.foldlM_cons] at h
    cases hl : lookup addr with
    | none =>
      simp only [getUserPage, hl, ok_bind, pure_eq_ok] at h
      rw [found, List.filterMap_cons, hl]
      exact ih _ h
    | some page =>
      simp only [getUserPage, hl, pure_eq_ok] at h
      obtain ⟨a, ha, h⟩ := bind_eq_ok.1 h
      obtain ⟨y, hy, ha⟩ := bind_eq_ok.1 ha
      obtain ⟨s₀, h₀, hy⟩ := bind_eq_ok.1 hy
      obtain rfl := Except.ok.inj hy
      obtain ⟨s₁, h₁, ha⟩ := bind_eq_ok.1 ha
      obtain rfl := Except.ok.inj ha
      rw [found, List.filterMap_cons, hl]
      change (s.mlinkFound c anchor addr page >>= _) = _
      rw [mlinkFound, h₀, ok_bind, h₁]
      exact ih _ h

theorem mlinkVmaPagesRange_ok {vma : Vma} {start stop : ℕ} {r : ℤ}
    (h : s.mlinkVmaPagesRange lookup c vma start stop anchor = .ok (s', r)) :
    s.mlinkPages c anchor (found lookup (vmaAddrs vma start stop)) = .ok s' := by
  rw [mlinkVmaPagesRange] at h
  split_ifs at h
  exact mlinkAddrs_ok h

theorem mlinkAreas_ok {stop : ℕ} : ∀ {fuel : ℕ} {vmas : List Vma} {at' : ℕ} {r r' : ℤ} {s : Mm},
    mlinkAreas lookup c stop anchor fuel vmas at' r s = .ok (s', r') →
      s.mlinkPages c anchor (found lookup (areaAddrs stop fuel vmas at')) = .ok s' := by
  intro fuel
  induction fuel with
  | zero =>
    intro vmas at' r r' s h
    rw [mlinkAreas] at h
    rw [areaAddrs]
    split_ifs at h ⊢
    obtain ⟨rfl, -⟩ := Prod.mk.inj (Except.ok.inj h)
    rfl
  | succ fuel ih =>
    intro vmas at' r r' s h
    rw [mlinkAreas] at h
    rw [areaAddrs]
    by_cases hat : at' < stop
    · rw [if_pos hat] at h ⊢
      cases hn : nextArea vmas at' with
      | nil =>
        rw [hn] at h
        obtain ⟨rfl, -⟩ := Prod.mk.inj (Except.ok.inj h)
        rfl
      | cons vma next =>
        rw [hn] at h
        dsimp only at h ⊢
        by_cases hv : stop ≤ vma.vmStart
        · rw [if_pos hv] at h ⊢
          obtain ⟨rfl, -⟩ := Prod.mk.inj (Except.ok.inj h)
          rfl
        · rw [if_neg hv] at h ⊢
          obtain ⟨⟨s₁, r₁⟩, h₁, h⟩ := bind_eq_ok.1 h
          rw [found, List.filterMap_append]
          exact mlinkPages_append (mlinkVmaPagesRange_ok h₁) (ih h)
    · rw [if_neg hat] at h ⊢
      obtain ⟨rfl, -⟩ := Prod.mk.inj (Except.ok.inj h)
      rfl

/-- A call that links a range links the pages found at its addresses. -/
theorem doMlinkPages_ok {vmas : List Vma} {start len : ℕ} {r : ℤ}
    (h : s.doMlinkPages vmas lookup c start len anchor = .ok (s', r)) :
    s.mlinkPages c anchor (found lookup (rangeAddrs vmas start len)) = .ok s' := by
  rw [doMlinkPages] at h
  rw [rangeAddrs]
  cases hv : findVma vmas start with
  | nil =>
    rw [hv] at h
    obtain ⟨rfl, -⟩ := Prod.mk.inj (Except.ok.inj h)
    rfl
  | cons vma next =>
    rw [hv] at h
    dsimp only at h ⊢
    by_cases hv : (start + len) % addressSpace ≤ vma.vmStart
    · rw [if_pos hv] at h ⊢
      obtain ⟨rfl, -⟩ := Prod.mk.inj (Except.ok.inj h)
      rfl
    · rw [if_neg hv] at h ⊢
      exact mlinkAreas_ok h

/-! ## The page of an address -/

/-- A page that is linked to the chain: it is locked if it is the anchor. -/
def linkedTo (c : ChainRef) (anchored : Bool) (x : Page) : Page :=
  if anchored then Mlock.mlockVmaPage { x with chain := some c } else { x with chain := some c }

/-- The page that is found before it is marked as accessed again, once it is linked to the chain. -/
def linkedPage (s : Mm) (c : ChainRef) (anchored : Bool) (p : PageRef) : Page :=
  linkedTo c anchored (s.page p).accessed

/-- What marking, linking to the chain `c`, and marking again does to a page of the chain or of none. -/
structure Mlinks (s s' : Mm) (c : ChainRef) (anchored : Bool) (p : PageRef) : Prop where
  linked : s'.Linked
  home : s.home p = none ∨ s.home p = some c
  page_eq : s'.page = Function.update s.page p (s.linkedPage c anchored p).accessed
  links_eq : s'.links = Function.update s.links c
    (if s.home p = some c then s.links c else p :: s.links c)
  allocated_eq : s'.allocated = s.allocated
  excess_eq : ∀ d, s'.excess d = if d = c then ((s'.links c).length : ℤ) -
    (s'.links c).countP (Function.update s.bit p (s.page p).accessed.referenced) else s.excess d

theorem linkedTo_chain (c : ChainRef) (b : Bool) (x : Page) : (linkedTo c b x).chain = some c := by
  rw [linkedTo]
  split_ifs
  · exact Mlock.mlock_chain _
  · rfl

theorem linkedTo_referenced (c : ChainRef) (b : Bool) (x : Page) :
    (linkedTo c b x).referenced = x.referenced := by
  rw [linkedTo]
  split_ifs
  · exact Mlock.mlock_referenced _
  · rfl

theorem linkedPage_chain (s : Mm) (c : ChainRef) (b : Bool) (p : PageRef) :
    (s.linkedPage c b p).chain = some c :=
  linkedTo_chain ..

/-- The links of a page, without the chain's mark. -/
theorem linkPage_ok (h : s.Linked) (hm : s.chain c = some m) (halloc : s.allocated p = true)
    (heq : s.linkPage c p = .ok s') : (s.home p = none ∨ s.home p = some c) ∧
      Relinks s s' p { s.page p with chain := some c } (Function.update s.links c
        (if s.home p = some c then s.links c else p :: s.links c)) := by
  cases hp : s.home p with
  | none =>
    obtain ⟨s₁, heq₁, h₁⟩ := linkPage_spec h hp hm halloc
    obtain rfl := Except.ok.inj (heq₁.symm.trans heq)
    exact ⟨.inl rfl, by simpa using h₁⟩
  | some d =>
    by_cases hd : d = c
    · subst hd
      rw [linkPage_of_mem hp] at heq
      obtain rfl := Except.ok.inj heq
      have hx : ({ s.page p with chain := some d } : Page) = s.page p := by
        rw [← show (s.page p).chain = some d from hp]
      rw [hx, if_pos rfl, Function.update_eq_self]
      exact ⟨.inr rfl, h, (Function.update_eq_self ..).symm, rfl, rfl, fun _ => rfl⟩
    · rw [linkPage_of_other h hp hd] at heq
      cases heq

theorem mlinkPages_live (h : s.Linked) {l : List (ℕ × PageRef)}
    (heq : s.mlinkPages c anchor l = .ok s') : l = [] ∧ s' = s ∨ ∃ m, s.chain c = some m := by
  cases l with
  | nil => exact .inl ⟨rfl, (Except.ok.inj heq).symm⟩
  | cons x l =>
    obtain ⟨s₁, heq₁, -⟩ := bind_eq_ok.1 heq
    obtain ⟨s₀, heq₀, heq₁⟩ := bind_eq_ok.1 heq₁
    obtain ⟨s₂, heq₂, -⟩ := bind_eq_ok.1 heq₁
    obtain ⟨s₃, heq₃, h₀⟩ := markPageAccessed_spec h x.2
    obtain rfl := Except.ok.inj (heq₃.symm.trans heq₀)
    exact .inr ((markPageAccessed_live h heq₀ c).1 (linkPage_live h₀.linked heq₂))

/-- The page of the anchor is locked, and becomes the anchor. -/
theorem anchorPage_spec (h : s.Linked) (hp : s.home p = some c) {addr : ℕ}
    (heq : (if addr = anchor then
      (s.modifyPage p Mlock.mlockVmaPage).modifyChain c fun m => { m with anchor := some p }
      else .ok s) = .ok s') :
    Touches s s' p (if addr = anchor then Mlock.mlockVmaPage (s.page p) else s.page p) s.excess ∧
      ∀ m, s.chain c = some m → s'.chain = Function.update s.chain c
        (some { m with anchor := if addr = anchor then some p else m.anchor }) := by
  obtain ⟨m, hm, hpm⟩ := h.live hp
  by_cases ha : addr = anchor
  · rw [if_pos ha] at heq
    rw [if_pos ha]
    have ht := h.touch (p := p) (f := Mlock.mlockVmaPage) (Mlock.mlock_chain _)
    rw [modifyChain_eq (s := s.modifyPage p Mlock.mlockVmaPage) hm] at heq
    obtain rfl := Except.ok.inj heq
    have hok := h.chain c m hm
    refine ⟨(ht.trans (ht.linked.setCounter hm { m with anchor := some p } rfl
      ⟨hok.attributes_eq, hok.nrLinks_eq, fun q hq => Option.some.inj hq ▸ hpm,
        hok.delegate_mem⟩ p)).congr ht.page_self fun d => ?_, fun n hn => ?_⟩
    · rw [ht.excess_eq, ht.excess_eq, Mlock.mlock_referenced, bit]
      by_cases hd : d = c
      · rw [hd]
        simp
      · simp [hd]
    · obtain rfl : m = n := Option.some.inj (hm.symm.trans hn)
      rw [if_pos ha]
      rfl
  · rw [if_neg ha] at heq
    obtain rfl := Except.ok.inj heq
    rw [if_neg ha]
    refine ⟨.refl h, fun n hn => ?_⟩
    rw [if_neg ha, ← hn, Function.update_eq_self]

theorem mlinkFound_spec (h : s.Linked) (hm : s.chain c = some m) (halloc : s.allocated p = true)
    {addr : ℕ} (heq : s.mlinkFound c anchor addr p = .ok s') :
    Mlinks s s' c (decide (addr = anchor)) p := by
  -- The page is marked, which keeps the structure.
  obtain ⟨s₀, heq₀, heq⟩ := bind_eq_ok.1 heq
  obtain ⟨t, ht, h₀⟩ := markPageAccessed_spec h p
  obtain rfl := Except.ok.inj (ht.symm.trans heq₀)
  obtain ⟨m₀, hm₀⟩ := (markPageAccessed_live h heq₀ c).2 ⟨m, hm⟩
  have hhome₀ : t.home = s.home := h₀.home_eq (Page.accessed_chain _)
  obtain ⟨s₁, heq₁, heq⟩ := bind_eq_ok.1 heq
  obtain ⟨hhome, h₁⟩ := linkPage_ok h₀.linked hm₀ (h₀.allocated_eq ▸ halloc) heq₁
  rw [hhome₀] at hhome
  have hp₁ : s₁.home p = some c := by rw [home_of_page h₁.page_eq, Function.update_self]
  have hpage₁ : s₁.page p = { (s.page p).accessed with chain := some c } := by
    rw [h₁.page_eq, Function.update_self, h₀.page_self]
  obtain ⟨s₂, heq₂, heq⟩ := bind_eq_ok.1 heq
  -- The anchor is locked, which keeps the structure.
  have h₂ : Touches s₁ s₂ p (s.linkedPage c (decide (addr = anchor)) p) s₁.excess := by
    refine (anchorPage_spec h₁.linked hp₁ heq₂).1.congr ?_ fun _ => rfl
    rw [linkedPage, linkedTo, hpage₁]
    simp only [decide_eq_true_eq]
  obtain ⟨s₃, heq₃, h₃⟩ := markPageAccessed_spec h₂.linked p
  obtain rfl := Except.ok.inj (heq₃.symm.trans heq)
  have hbit : s₂.bit = Function.update s.bit p (s.page p).accessed.referenced := by
    rw [bit_of_page h₂.page_eq, linkedPage, linkedTo_referenced, bit_of_page h₁.page_eq,
      bit_of_page h₀.page_eq, Function.update_idem, Function.update_idem]
  have hlinks : s₃.links = s₁.links := h₃.links_eq.trans h₂.links_eq
  refine ⟨h₃.linked, hhome, ?_, ?_,
    ((h₃.allocated_eq.trans h₂.allocated_eq).trans h₁.allocated_eq).trans h₀.allocated_eq,
    fun d => ?_⟩
  · rw [h₃.page_eq, h₂.page_eq, h₁.page_eq, h₀.page_eq, Function.update_idem, Function.update_idem,
      Function.update_idem, Function.update_self]
  · rw [hlinks, h₁.links_eq, h₀.links_eq, hhome₀]
  · rw [h₃.excess_eq, refs, hbit, h₂.home_eq ((linkedPage_chain ..).trans hp₁.symm), hp₁]
    by_cases hd : d = c
    · rw [hd, if_pos rfl, if_pos rfl, h₃.links_eq]
    · have hd' : ¬s.home p = some d := fun hp => by
        rcases hhome with hhome | hhome
        · cases hp.symm.trans hhome
        · exact hd (Option.some.inj (hp.symm.trans hhome))
      rw [if_neg fun hc => hd (Option.some.inj hc).symm, if_neg hd, h₂.excess_eq, h₁.excess_eq,
        h₀.excess_eq, if_neg hd']

end Mcpq.Kernel.Mm
