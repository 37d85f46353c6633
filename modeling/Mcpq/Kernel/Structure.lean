import Mcpq.Kernel.Ranges

/-!
# Safety of the chains

The transition system of the operations on the chains that run to completion (`System`), and the
invariant of its states (`chains_structure`): the lists of the chains are the pages that point to them,
counted, with the anchor and the delegate among them; no page points to a chain that was released; and
the counter of a chain is at least the number of its pages that are referenced. The counter is an
`atomic_t`, which `SetPageReferenced` increments whether or not the bit is set: the chains are safe as long
as it does not do so at the greatest value (`NoWrap`).
-/

namespace Mcpq.Kernel

/-- An operation on the chains. A task is given by its number, a chain by its descriptor; `addr` is
    what `kmalloc` returns, and `vmas` and `lookup` the memory areas of the task and the page
    found at each address. -/
inductive Op
  | newMemChain (tsk : TaskRef) (addr : ChainRef)
  | linkAddrRng (vmas : List Mm.Vma) (lookup : ℕ → Option PageRef) (tsk : TaskRef) (c start len : ℕ)
  | anchor (vmas : List Mm.Vma) (lookup : ℕ → Option PageRef) (tsk : TaskRef) (c addr : ℕ)
  | brkMemChain (tsk : TaskRef) (c : ℕ)
  | rlsMemChain (tsk : TaskRef) (c : ℕ)
  | freePage (p : PageRef)
  | allocPage (p : PageRef)
  | markPageAccessed (p : PageRef)
  | setPageReferenced (p : PageRef)
  | clearPageReferenced (p : PageRef)
  | testClearPageReferenced (p : PageRef)
  | doExit (tsk : TaskRef)
  /-- The rest of the kernel, which neither links pages nor references them. -/
  | other (page : PageRef → Page) (zone : Zone)

namespace Op

/-- An address that is free, pages that are not with the page allocator, or are. -/
def Admissible (s : Mm) : Op → Prop
  | newMemChain _ addr => s.chain addr = none
  | linkAddrRng _ lookup _ _ _ _ => ∀ a p, lookup a = some p → s.allocated p = true
  | anchor _ lookup _ _ _ => ∀ a p, lookup a = some p → s.allocated p = true
  | freePage p => s.allocated p = true
  | allocPage p => s.allocated p = false ∧ p < maxPages
  | other page _ => ∀ p, (page p).chain = (s.page p).chain ∧
      (page p).referenced = (s.page p).referenced
  | _ => True

/-- Execute an operation, whose value is returned to the task. -/
def exec [Mlock] (s : Mm) : Op → Result Mm
  | newMemChain tsk addr => (s.newMemChain tsk addr).map Prod.fst
  | linkAddrRng vmas lookup tsk c start len =>
    (s.linkAddrRng vmas lookup tsk c start len).map Prod.fst
  | anchor vmas lookup tsk c addr => (s.anchor vmas lookup tsk c addr).map Prod.fst
  | brkMemChain tsk c => (s.brkMemChain tsk c).map Prod.fst
  | rlsMemChain tsk c => (s.rlsMemChain tsk c).map Prod.fst
  | freePage p => s.freePage p
  | allocPage p => .ok (s.allocPage p)
  | markPageAccessed p => s.markPageAccessed p
  | setPageReferenced p => s.setPageReferenced p
  | clearPageReferenced p => s.clearPageReferenced p
  | testClearPageReferenced p => (s.testClearPageReferenced p).map Prod.fst
  | doExit tsk => s.doExit tsk
  | other page zone => .ok { s with page := page, zone := zone }

end Op

/-- An operation that runs to completion. -/
structure Step [Mlock] (s : Mm) (op : Op) (s' : Mm) : Prop where
  admissible : op.Admissible s
  completes : op.exec s = .ok s'

/-- The runs of the operations, from a memory without chains. -/
def System [Mlock] : Transition Mm Op where
  init s := (∀ p, (s.page p).chain = none) ∧ (∀ c, s.chain c = none) ∧ (∀ tsk, s.mcc tsk = none) ∧
    ∀ p, s.allocated p = true → p < maxPages
  step := Step

/-- No counter is incremented that has the greatest value. -/
def NoWrap (s : Mm) : Op → Prop
  | .setPageReferenced p => ∀ c m, (s.page p).chain = some c → s.chain c = some m →
    m.counter ≠ 2 ^ 31 - 1
  | _ => True

theorem MemoryChain.counter_eq {m : MemoryChain} (h : 0 ≤ m.refCounter) (hlt : m.refCounter < 2 ^ 31) :
    m.counter = m.refCounter :=
  Int.bmod_eq_of_le_mul_two (by omega) (by omega)

namespace Mm

variable {s s' : Mm} {p q : PageRef} {c d : ChainRef} {m : MemoryChain}

/-- The counters of the chains count the references at least. -/
def Covers (s : Mm) : Prop := s.Linked ∧ ∀ c, 0 ≤ s.excess c

theorem map_fst_ok {α : Type} {x : Result (Mm × α)} (h : x.map Prod.fst = .ok s') :
    ∃ a, x = .ok (s', a) := by
  cases x with
  | error e => cases h
  | ok r =>
    obtain rfl := Except.ok.inj h
    exact ⟨r.2, rfl⟩

/-- A step adds one to the counter of the chain of a page that is referenced. Otherwise the counter is not
    greater than before, or than there may be pages. -/
def Grows (s : Mm) (op : Op) (s' : Mm) : Prop :=
  ∀ d, s'.count d ≤ max (s.count d) (2 * maxPages) ∨
    ∃ p, op = .setPageReferenced p ∧ s.home p = some d ∧ s'.count d = s.count d + 1

theorem Covers.of_eq_or_zero (h : s.Covers) (op : Op) (hl : s'.Linked)
    (he : ∀ d, s'.excess d = s.excess d ∨ s'.excess d = 0)
    (hc : ∀ d, s'.count d = s.count d ∨ s'.count d = 0) : s'.Covers ∧ s.Grows op s' := by
  refine ⟨⟨hl, fun d => ?_⟩, fun d => .inl ?_⟩
  · rcases he d with hd | hd
    · rw [hd]
      exact h.2 d
    · rw [hd]
  · rcases hc d with hd | hd
    · exact hd.trans_le (le_max_left ..)
    · exact hd.trans_le (le_max_of_le_right (by decide))

/-- A page is updated that stays on its chain. -/
theorem Touches.count_eq {x : Page} {e : ChainRef → ℤ} (h : Touches s s' p x e) (hl : s.Linked)
    (d : ChainRef) : s'.count d = e d + (s.refs d +
      if s.home p = some d then (x.referenced.toNat : ℤ) - (s.bit p).toNat else 0) := by
  rw [Mm.count_eq, h.excess_eq, h.refs_eq hl]

/-- A bit is cleared, and the counter of its chain follows. -/
theorem Covers.cleared (h : s.Covers) {op : Op}
    (ht : Touches s s' p ((s.page p).clearBit .referenced) s.excess) : s'.Covers ∧ s.Grows op s' := by
  refine ⟨⟨ht.linked, fun d => (ht.excess_eq d).symm ▸ h.2 d⟩, fun d => .inl (le_max_of_le_left ?_)⟩
  have href : ((s.page p).clearBit .referenced).referenced = false := by simp [Page.referenced]
  rw [ht.count_eq h.1, href, count_eq]
  split_ifs
  · rw [Bool.toNat_false]
    omega
  · rw [add_zero]

theorem mem_found {lookup : ℕ → Option PageRef} {addrs : List ℕ} {x : ℕ × PageRef}
    (hx : x ∈ found lookup addrs) : lookup x.1 = some x.2 ∧ x.1 ∈ addrs := by
  obtain ⟨a, ha, hax⟩ := List.mem_filterMap.1 hx
  obtain ⟨q, hq, rfl⟩ := Option.map_eq_some_iff.1 hax
  exact ⟨hq, ha⟩

variable [Mlock]

theorem Mlinks.live {b : Bool} (h : Mlinks s s' c b p) : ∃ m, s'.chain c = some m := by
  have hp : s'.home p = some c := by
    rw [home_of_page h.page_eq, Function.update_self, Page.accessed_chain, linkedPage_chain]
  obtain ⟨m, hm, -⟩ := h.linked.live hp
  exact ⟨m, hm⟩

theorem Mlinks.covers {b : Bool} (h : s.Covers) (hs' : Mlinks s s' c b p) : s'.Covers ∧
    ∀ d, s'.count d ≤ max (s.count d) (2 * maxPages) := by
  have hle := hs'.linked.length_le c
  have hcount : (s'.links c).countP (Function.update s.bit p (s.page p).accessed.referenced) ≤
      (s'.links c).length := List.countP_le_length
  refine ⟨⟨hs'.linked, fun d => ?_⟩, fun d => ?_⟩
  · rw [hs'.excess_eq]
    split_ifs
    · omega
    · exact h.2 d
  · rw [count_eq, hs'.excess_eq]
    split_ifs with hd
    · have := refs_le_length s' c
      rw [hd]
      exact le_max_of_le_right (by omega)
    · -- The page is not on another chain.
      have hne : ∀ q ∈ s.links d, q ≠ p := fun q hq hqp => by
        have hhome := (h.1.members.mem_iff q d).1 hq
        rw [hqp] at hhome
        rcases hs'.home with hp | hp
        · cases hhome.symm.trans hp
        · exact hd (Option.some.inj (hhome.symm.trans hp))
      have hrefs : s'.refs d = s.refs d :=
        refs_congr (by rw [hs'.links_eq, Function.update_of_ne hd]) fun q hq => by
          rw [bit_of_page hs'.page_eq, Function.update_of_ne (hne q hq)]
      rw [hrefs, ← count_eq]
      exact le_max_left ..

theorem Covers.mlinkPages (h : s.Covers) (hm : s.chain c = some m) {anchor : ℕ}
    {l : List (ℕ × PageRef)} (ha : ∀ x ∈ l, s.allocated x.2 = true)
    (heq : s.mlinkPages c anchor l = .ok s') : s'.Covers ∧
      ∀ d, s'.count d ≤ max (s.count d) (2 * maxPages) := by
  have hrun := foldlM_invariant (fun s₁ : Mm => (s₁.Covers ∧ ∀ d, s₁.count d ≤
    max (s.count d) (2 * maxPages)) ∧ (∃ m, s₁.chain c = some m) ∧ s₁.allocated = s.allocated)
    (fun x hx s₁ s₂ hs₁ heq₁ => ?_) ⟨⟨h, fun d => le_max_left ..⟩, ⟨m, hm⟩, rfl⟩ heq
  · exact hrun.1
  · obtain ⟨⟨hc, hcount⟩, ⟨m₁, hm₁⟩, halloc⟩ := hs₁
    have hax : s₁.allocated x.2 = true := by
      rw [halloc]
      exact ha x hx
    have hs₂ := mlinkFound_spec hc.1 hm₁ hax heq₁
    obtain ⟨hc₂, hcount₂⟩ := hs₂.covers hc
    exact ⟨⟨hc₂, fun d => (hcount₂ d).trans (max_le (hcount d) (le_max_right ..))⟩, hs₂.live,
      hs₂.allocated_eq.trans halloc⟩

/-- A range is linked to a chain: pages are linked only if the chain is allocated. -/
theorem Covers.doMlinkPages (h : s.Covers) {op : Op} {vmas : List Vma} {lookup : ℕ → Option PageRef}
    (ha : ∀ a p, lookup a = some p → s.allocated p = true) {start len anchor : ℕ} {r : ℤ}
    (heq : s.doMlinkPages vmas lookup c start len anchor = .ok (s', r)) :
    s'.Covers ∧ s.Grows op s' := by
  have heq' := doMlinkPages_ok heq
  rcases mlinkPages_live h.1 heq' with ⟨-, rfl⟩ | ⟨m, hm⟩
  · exact ⟨h, fun d => .inl (le_max_left ..)⟩
  · obtain ⟨hc, hcount⟩ := h.mlinkPages hm (fun x hx => ha x.1 x.2 (mem_found hx).1) heq'
    exact ⟨hc, fun d => .inl (hcount d)⟩

/-- Each operation keeps the structure, and the counters count the references at least. -/
theorem Covers.step {op : Op} (h : s.Covers) (hst : Step s op s') : s'.Covers ∧ s.Grows op s' := by
  have hsame : s.Covers ∧ s.Grows op s := ⟨h, fun d => .inl (le_max_left ..)⟩
  obtain ⟨hadm, heq⟩ := hst
  cases op with
  | newMemChain tsk addr =>
    obtain ⟨r, heq⟩ := map_fst_ok heq
    obtain ⟨hl, he, hc⟩ := newMemChain_spec h.1 hadm heq
    exact h.of_eq_or_zero _ hl (fun d => .inl (he d)) fun d => .inl (hc d)
  | linkAddrRng vmas lookup tsk c start len =>
    obtain ⟨r, heq⟩ := map_fst_ok heq
    rcases linkAddrRng_cases heq with ⟨-, rfl⟩ | ⟨x, -, heq⟩
    · exact hsame
    · exact h.doMlinkPages hadm heq
  | anchor vmas lookup tsk c addr =>
    obtain ⟨r, heq⟩ := map_fst_ok heq
    rcases anchor_cases heq with ⟨-, rfl⟩ | ⟨x, r', -, heq⟩
    · exact hsame
    · exact h.doMlinkPages hadm heq
  | brkMemChain tsk c =>
    obtain ⟨r, heq⟩ := map_fst_ok heq
    obtain ⟨hl, he, hc⟩ := brkMemChain_spec h.1 heq
    exact h.of_eq_or_zero _ hl he hc
  | rlsMemChain tsk c =>
    obtain ⟨r, heq⟩ := map_fst_ok heq
    obtain ⟨hl, he, hc⟩ := rlsMemChain_spec h.1 heq
    exact h.of_eq_or_zero _ hl he hc
  | freePage p =>
    obtain ⟨s₁, heq₁, hl, he, hcount⟩ := freePage_spec h.1 p
    obtain rfl := Except.ok.inj (heq₁.symm.trans heq)
    refine ⟨⟨hl, fun c => ?_⟩, fun d => .inl ((hcount d).trans (le_max_left ..))⟩
    rw [he]
    have := h.2 c
    split_ifs
    all_goals omega
  | allocPage p =>
    obtain rfl := Except.ok.inj heq
    obtain ⟨hl, he, hc⟩ := allocPage_spec h.1 hadm.1 hadm.2
    exact h.of_eq_or_zero _ hl (fun d => .inl (he d)) fun d => .inl (hc d)
  | markPageAccessed p =>
    obtain ⟨s₁, heq₁, ht⟩ := markPageAccessed_spec h.1 p
    obtain rfl := Except.ok.inj (heq₁.symm.trans heq)
    refine ⟨⟨ht.linked, fun c => ?_⟩, fun d => .inl ?_⟩
    · rw [ht.excess_eq]
      split_ifs
      · have := refs_le_length s c
        omega
      · exact h.2 c
    · rw [ht.count_eq h.1]
      split_ifs
      · have hle := h.1.length_le d
        have hone := Bool.toNat_le (s.page p).accessed.referenced
        rw [maxPages] at hle
        exact le_max_of_le_right (by rw [maxPages]; omega)
      · rw [add_zero, ← count_eq]
        exact le_max_left ..
  | setPageReferenced p =>
    obtain ⟨s₁, heq₁, ht⟩ := setPageReferenced_spec h.1 p
    obtain rfl := Except.ok.inj (heq₁.symm.trans heq)
    have href : ((s.page p).setBit .referenced).referenced = true := by simp [Page.referenced]
    refine ⟨⟨ht.linked, fun c => ?_⟩, fun d => ?_⟩
    · rw [ht.excess_eq]
      have := h.2 c
      split_ifs
      all_goals omega
    · rw [ht.count_eq h.1, href, count_eq]
      by_cases hd : s.home p = some d
      · refine .inr ⟨p, rfl, hd, ?_⟩
        rw [if_pos hd, if_pos hd, Bool.toNat_true]
        omega
      · rw [if_neg hd, if_neg hd, add_zero, add_zero]
        exact .inl (le_max_left ..)
  | clearPageReferenced p =>
    obtain ⟨s₁, heq₁, ht⟩ := clearPageReferenced_spec h.1 p
    obtain rfl := Except.ok.inj (heq₁.symm.trans heq)
    exact h.cleared ht
  | testClearPageReferenced p =>
    obtain ⟨v, heq⟩ := map_fst_ok heq
    obtain ⟨s₁, v₁, heq₁, ht⟩ := testClearPageReferenced_spec h.1 p
    obtain ⟨rfl, -⟩ := Prod.mk.inj (Except.ok.inj (heq₁.symm.trans heq))
    exact h.cleared ht
  | doExit tsk =>
    -- The counters may only become 0.
    have hslot : ∀ mcc i s₁ (r : MemoryChainCollection × Mm),
        (s₁.Covers ∧ ∀ d, s₁.count d = s.count d ∨ s₁.count d = 0) → exitSlot mcc i s₁ = .ok r →
          r.2.Covers ∧ ∀ d, r.2.count d = s.count d ∨ r.2.count d = 0 :=
      fun _ _ s₁ _ hs₁ heq₁ => by
        obtain ⟨hl, he, hc⟩ := exitSlot_spec hs₁.1.1 heq₁
        refine ⟨(hs₁.1.of_eq_or_zero (.doExit tsk) hl he hc).1, fun d => ?_⟩
        rcases hc d with hd | hd
        · rw [hd]
          exact hs₁.2 d
        · exact .inr hd
    obtain ⟨s₁, ⟨hs₁, hc⟩, rfl⟩ := doExit_invariant hslot ⟨h, fun _ => .inl rfl⟩ heq
    refine ⟨⟨hs₁.1.setMcc _ _, hs₁.2⟩, fun d => .inl ?_⟩
    change s₁.count d ≤ _
    rcases hc d with hd | hd
    · exact hd.trans_le (le_max_left ..)
    · exact hd.trans_le (le_max_of_le_right (by decide))
  | other page zone =>
    obtain rfl := Except.ok.inj heq
    have hhome : ({ s with page := page, zone := zone } : Mm).home = s.home :=
      funext fun p => (hadm p).1
    refine h.of_eq_or_zero _ ⟨hhome ▸ h.1.members, h.1.chain, fun p hp => hhome ▸ h.1.free p hp,
      h.1.few⟩ (fun c => .inl ?_) fun c => .inl rfl
    exact excess_congr rfl fun p _ => (hadm p).2

theorem covers_of_init (hs : System.init s) : s.Covers ∧ ∀ d, s.count d = 0 := by
  obtain ⟨hpage, hchain, -, hfew⟩ := hs
  have hlinks : s.links = fun _ => [] := by
    funext c
    rw [links, hchain]
    rfl
  refine ⟨⟨⟨?_, fun c m hm => ?_, fun p _ => hpage p, hfew⟩, fun c => ?_⟩, fun d => ?_⟩
  · rw [hlinks, show s.home = fun _ => none from funext hpage]
    exact Members.empty
  · rw [hchain] at hm
    cases hm
  · rw [excess_of_free (hchain c)]
  · rw [count, hchain]
    rfl

theorem reachable_covers (h : System.Reachable s) : s.Covers :=
  h.invariant (fun _ hs => (covers_of_init hs).1) fun _ _ _ hs _ hst => (hs.step hst).1

/-- An `int` holds the counters. -/
def Fits (s : Mm) : Prop := ∀ d, s.count d < 2 ^ 31

omit [Mlock] in
theorem Covers.counter_eq (h : s.Covers) (hf : s.Fits) (hm : s.chain c = some m) :
    m.counter = m.refCounter := by
  have hcount := count_eq s c
  have hlt := hf c
  have he := h.2 c
  rw [count_of_chain hm] at hcount hlt
  exact MemoryChain.counter_eq (by omega) hlt

/-- The counters fit after a step if no one is incremented that has the greatest value. -/
theorem Fits.step {op : Op} (hf : s.Fits) (h : s.Covers) (hst : Step s op s') (hw : NoWrap s op) :
    s'.Fits := fun d => by
  have hpages : (2 * maxPages : ℤ) < 2 ^ 31 := by decide
  rcases (h.step hst).2 d with hle | ⟨p, rfl, hp, heq⟩
  · exact hle.trans_lt (max_lt (hf d) hpages)
  · obtain ⟨m, hm, -⟩ := h.1.live hp
    have hne := hw d m hp hm
    rw [h.counter_eq hf hm] at hne
    have hlt := hf d
    rw [heq]
    rw [count_of_chain hm] at hlt ⊢
    omega

theorem reachable_fits (h : System.ReachableBy NoWrap s) : s.Fits :=
  (h.invariant (I := fun s => s.Covers ∧ s.Fits)
    (fun _ hs => ⟨(covers_of_init hs).1, fun d => (covers_of_init hs).2 d ▸ by decide⟩)
    fun _ _ _ hs hw hst => ⟨(hs.1.step hst).1, hs.2.step hs.1 hst hw⟩).2

/-- A memory with safe chains: a page is on the list of a chain, once, exactly if it points to it; a
    chain counts its pages; its anchor and its delegate are among them; no page points to a chain that
    was released; and the counter of a chain is at least the number of its pages that are referenced,
    so that the pages of a chain with a page that is referenced are taken to be referenced. -/
structure Safe (s : Mm) : Prop where
  nodup : ∀ c m, s.chain c = some m → m.links.Nodup
  mem_iff : ∀ c m, s.chain c = some m → ∀ p, p ∈ m.links ↔ (s.page p).chain = some c
  unique : ∀ c d m n p, s.chain c = some m → s.chain d = some n → p ∈ m.links → p ∈ n.links → c = d
  nrLinks_eq : ∀ c m, s.chain c = some m → m.nrLinks = m.links.length
  anchor_mem : ∀ c m p, s.chain c = some m → m.anchor = some p → p ∈ m.links
  delegate_mem : ∀ c m p, s.chain c = some m → m.delegate = some p → p ∈ m.links
  live : ∀ p c, (s.page p).chain = some c → ∃ m, s.chain c = some m
  count_le : ∀ c m, s.chain c = some m →
    ((m.links.countP fun p => (s.page p).referenced : ℕ) : ℤ) ≤ m.counter
  nonneg : ∀ c m, s.chain c = some m → 0 ≤ m.counter
  pageReferenced_ne : ∀ p q c, (s.page p).chain = some c → (s.page q).chain = some c →
    (s.page q).referenced = true → ∃ r, s.pageReferenced p = .ok r ∧ r ≠ 0

omit [Mlock] in
theorem Covers.safe (h : s.Covers) (hf : s.Fits) : s.Safe := by
  have hl := h.1
  have hmem : ∀ c m, s.chain c = some m → ∀ p, p ∈ m.links ↔ (s.page p).chain = some c :=
    fun c m hm p => links_of_chain hm ▸ hl.members.mem_iff p c
  have hcount : ∀ c m, s.chain c = some m →
      ((m.links.countP fun p => (s.page p).referenced : ℕ) : ℤ) ≤ m.counter := fun c m hm => by
    have := h.2 c
    rw [excess_of_chain hm, refs, links_of_chain hm] at this
    rw [h.counter_eq hf hm]
    exact sub_nonneg.1 this
  have hlive : ∀ p c, (s.page p).chain = some c → ∃ m, s.chain c = some m := fun p c hp => by
    obtain ⟨m, hm, -⟩ := hl.live hp
    exact ⟨m, hm⟩
  refine ⟨fun c m hm => links_of_chain hm ▸ hl.members.nodup c, hmem,
    fun c d m n p hm hn hpm hpn => ?_, fun c m hm => (hl.chain c m hm).nrLinks_eq,
    fun c m p hm => (hl.chain c m hm).anchor_mem p, fun c m p hm => (hl.chain c m hm).delegate_mem p,
    hlive, hcount, fun c m hm => (Nat.cast_nonneg _).trans (hcount c m hm), fun p q c hp hq hr => ?_⟩
  · exact Option.some.inj (((hmem c m hm p).1 hpm).symm.trans ((hmem d n hn p).1 hpn))
  · obtain ⟨m, hm⟩ := hlive q c hq
    rw [pageReferenced]
    split_ifs
    · exact ⟨1, rfl, one_ne_zero⟩
    · rw [hp]
      dsimp only
      rw [derefChain_eq_ok.2 hm]
      refine ⟨m.counter, rfl, ?_⟩
      have hpos : 0 < m.links.countP fun p => (s.page p).referenced :=
        List.countP_pos_iff.2 ⟨q, (hmem c m hm q).2 hq, hr⟩
      have := hcount c m hm
      omega

/-- The counter of the chain of a page has come from the greatest value to the least one. -/
theorem not_safe_of_wrap {op : Op} (h : s.Covers) (hf : s.Fits) (hst : Step s op s')
    (hw : ¬NoWrap s op) : ¬s'.Safe := by
  cases op with
  | setPageReferenced p =>
    simp only [NoWrap, not_forall, not_not] at hw
    obtain ⟨c, m, hp, hm, hmax⟩ := hw
    obtain ⟨s₁, heq₁, ht⟩ := setPageReferenced_spec h.1 p
    obtain rfl := Except.ok.inj (heq₁.symm.trans hst.completes)
    have hp' : s₁.home p = some c := by rw [ht.home_eq rfl]; exact hp
    obtain ⟨m', hm', -⟩ := ht.linked.live hp'
    have href : ((s.page p).setBit .referenced).referenced = true := by simp [Page.referenced]
    have hhome : s.home p = some c := hp
    have hcount := ht.count_eq h.1 c
    simp only [href, hhome, if_true, count_of_chain hm', Bool.toNat_true] at hcount
    have hsum := count_eq s c
    rw [count_of_chain hm, ← h.counter_eq hf hm, hmax] at hsum
    have hrc : m'.refCounter = 2 ^ 31 := by
      push_cast at hcount
      omega
    intro hsafe
    have hneg := hsafe.nonneg c m' hm'
    rw [MemoryChain.counter, hrc] at hneg
    exact absurd hneg (by decide)
  | _ => exact absurd trivial hw

/-- The chains are safe in every state of the runs, of operations that run to completion, in which no
    counter is incremented that has the greatest value; and after such an increment they are not. -/
theorem chains_structure : (∀ s, System.ReachableBy NoWrap s → s.Safe) ∧
    ∀ s op s', System.ReachableBy NoWrap s → Step s op s' → (s'.Safe ↔ NoWrap s op) := by
  have hcovers : ∀ {s}, System.ReachableBy NoWrap s → s.Covers := fun hs =>
    reachable_covers hs.reachable
  refine ⟨fun s hs => (hcovers hs).safe (reachable_fits hs), fun s op s' hs hst => ⟨fun hsafe => ?_,
    fun hw => ?_⟩⟩
  · by_contra hw
    exact not_safe_of_wrap (hcovers hs) (reachable_fits hs) hst hw hsafe
  · exact ((hcovers hs).step hst).1.safe ((reachable_fits hs).step (hcovers hs) hst hw)

/-- The pages found in an area of two pages. -/
def twoPages (a : ℕ) : Option PageRef :=
  if a = 4096 then some 0 else if a = 8192 then some 1 else none

omit [Mlock] in
theorem twoPages_eq_some {a : ℕ} {p : PageRef} (hp : twoPages a = some p) : p = 0 ∨ p = 1 := by
  rw [twoPages] at hp
  split_ifs at hp
  · exact .inl (Option.some.inj hp).symm
  · exact .inr (Option.some.inj hp).symm

set_option maxRecDepth 4000 in
omit [Mlock] in
/-- A page is allocated, and linked to a chain that was created. -/
theorem exists_linked :
    ∃ s, (@System Mlock.flag).ReachableBy (@NoWrap) s ∧ (s.page 0).chain = some 7 ∧ s.count 7 = 1 := by
  let _ := Mlock.flag
  have hs : System.ReachableBy NoWrap ({} : Mm) :=
    .init ⟨fun _ => rfl, fun _ => rfl, fun _ => rfl, fun _ h => nomatch h⟩
  obtain ⟨s, hr, hp, hcount⟩ : ∃ s, System.RunBy NoWrap {} [.allocPage 0, .newMemChain 0 7,
      .linkAddrRng [⟨4096, 8192, false⟩] (fun a => if a = 4096 then some 0 else none) 0 0 4096 4096]
        s ∧ (s.page 0).chain = some 7 ∧ s.count 7 = 1 := by
    refine ⟨_, .cons trivial ⟨⟨rfl, by decide⟩, rfl⟩ (.cons trivial ⟨rfl, rfl⟩ (.cons trivial
      ⟨fun a p ha => ?_, rfl⟩ .nil)), rfl, rfl⟩
    dsimp only at ha
    split_ifs at ha
    exact Option.some.inj ha ▸ rfl
  exact ⟨s, hr.reachable hs, hp, hcount⟩

omit [Mlock] in
/-- A page that has been linked to a chain. -/
theorem chains_structure_linked :
    ∃ s, (@System Mlock.flag).ReachableBy (@NoWrap) s ∧ (s.page 0).chain = some 7 ∧ s.Safe := by
  let _ := Mlock.flag
  obtain ⟨s, hs, hp, -⟩ := exists_linked
  exact ⟨s, hs, hp, chains_structure.1 s hs⟩

/-- The reference of a page of a chain is set any number of times. -/
theorem setPageReferenced_run (h : s.Linked) (hp : s.home p = some c) (n : ℕ) :
    ∃ s', System.RunBy (fun _ _ => True) s (List.replicate n (.setPageReferenced p)) s' ∧
      s'.Linked ∧ s'.home p = some c ∧ s'.count c = s.count c + n := by
  induction n with
  | zero => exact ⟨s, .nil, h, hp, (add_zero _).symm⟩
  | succ n ih =>
    obtain ⟨s₁, hr, h₁, hp₁, hcount₁⟩ := ih
    obtain ⟨s₂, heq, ht⟩ := setPageReferenced_spec h₁ p
    have href : ((s₁.page p).setBit .referenced).referenced = true := by simp [Page.referenced]
    refine ⟨s₂, ?_, ht.linked, ?_, ?_⟩
    · rw [List.replicate_succ']
      exact hr.append (.cons trivial ⟨trivial, heq⟩ .nil)
    · rw [ht.home_eq rfl, hp₁]
    · have hsum := count_eq s₁ c
      rw [ht.count_eq h₁, href, if_pos hp₁, if_pos hp₁, Bool.toNat_true]
      push_cast
      omega

omit [Mlock] in
/-- When the reference of a page of a chain has been set `2 ^ 31 - 1` times, the counter is negative. -/
theorem chains_structure_wraps : ∃ s m, (@System Mlock.flag).Reachable s ∧ s.chain 7 = some m ∧
    m.counter = -2 ^ 31 ∧ ¬s.Safe := by
  let _ := Mlock.flag
  obtain ⟨s, hs, hp, hcount⟩ := exists_linked
  obtain ⟨s', hr, h', hp', hcount'⟩ :=
    setPageReferenced_run (reachable_covers hs.reachable).1 hp (2 ^ 31 - 1)
  obtain ⟨m, hm, -⟩ := h'.live hp'
  have hcounter : m.counter = -2 ^ 31 := by
    rw [count_of_chain hm, hcount] at hcount'
    rw [MemoryChain.counter, hcount']
    decide
  refine ⟨s', m, hr.reachable hs.reachable, hm, hcounter, fun hsafe => ?_⟩
  have hneg := hsafe.nonneg 7 m hm
  rw [hcounter] at hneg
  exact absurd hneg (by decide)

end Mm

end Mcpq.Kernel
