import Mcpq.Kernel.Visits
import Mcpq.Kernel.Walk

/-!
# The value of `link_addr_rng`

A call that links a range to a chain should return 0 if every page of the range is found and linked,
and a negative value only if nothing has changed (`LinkContract`).

The value returned is the number of the pages found in the last area, or -1 if the range ends in a
hole, which is discovered once the areas before it have been linked (`doMlinkPages_result`); the range
without pages gives -1 as well. A range whose pages are all linked thus gives 0 only if it ends in the
guard page of a stack, and one that ends in a hole is unchanged only if its pages were on the chain,
with what they leave there (`linkAddrRng_iff`).
-/

namespace Mcpq.Kernel.Mm

variable {s s' s₁ : Mm} {p q : PageRef} {c : ChainRef} {m : MemoryChain} {vma : Vma}
  {vmas : List Vma} {lookup : ℕ → Option PageRef} {anchor start stop a : ℕ} {tsk : TaskRef} {r r' : ℤ}
  {l : List (ℕ × PageRef)}

/-! ## The value of a walk -/

/-- The range that ends at `stop` ends in the area. -/
def Vma.Ends (v : Vma) (stop : ℕ) : Prop := v.vmStart < stop ∧ stop ≤ v.vmEnd

section

variable [Mlock]

/-- The pages found in an area are counted. -/
theorem mlinkAddrs_count {addrs : List ℕ}
    (h : s.mlinkAddrs lookup c anchor addrs = .ok (s', r)) : r = (found lookup addrs).length := by
  refine foldlM_run (fun done (b : Mm × ℤ) => b.2 = (found lookup done).length)
    (fun done addr b b' _ hb h => ?_) rfl h
  rw [found, List.filterMap_append, List.length_append]
  obtain ⟨⟨s₀, page⟩, h₀, h⟩ := bind_eq_ok.1 h
  cases hl : lookup addr with
  | none =>
    simp only [getUserPage, hl] at h₀
    obtain ⟨-, rfl⟩ := Prod.mk.inj (Except.ok.inj h₀)
    obtain rfl := Except.ok.inj h
    rw [List.filterMap_cons, hl]
    exact hb
  | some page =>
    simp only [getUserPage, hl] at h₀
    obtain ⟨s₁, -, h₀⟩ := bind_eq_ok.1 h₀
    obtain ⟨-, rfl⟩ := Prod.mk.inj (Except.ok.inj h₀)
    obtain ⟨s₂, -, h⟩ := bind_eq_ok.1 h
    obtain rfl := Except.ok.inj h
    rw [List.filterMap_cons, hl]
    dsimp only
    rw [hb]
    rfl

theorem mlinkVmaPagesRange_count {b e : ℕ}
    (h : s.mlinkVmaPagesRange lookup c vma b e anchor = .ok (s', r)) :
    r = (found lookup (vmaAddrs vma b e)).length := by
  rw [mlinkVmaPagesRange] at h
  split_ifs at h
  exact mlinkAddrs_count h

/-- A walk that has come to the end of the range returns its value. -/
theorem mlinkAreas_end {fuel : ℕ} {at' : ℕ} (hat : ¬ at' < stop)
    (h : mlinkAreas lookup c stop anchor fuel vmas at' r s = .ok (s', r')) : s' = s ∧ r' = r := by
  cases fuel
  all_goals
    rw [mlinkAreas, if_neg hat] at h
    obtain ⟨rfl, rfl⟩ := Prod.mk.inj (Except.ok.inj h)
    exact ⟨rfl, rfl⟩

/-- An iteration of the loop over the areas. -/
theorem mlinkAreas_succ {fuel at' : ℕ} (hat : at' < stop) :
    mlinkAreas lookup c stop anchor (fuel + 1) vmas at' r s = match nextArea vmas at' with
      | [] => .ok (s, -1)
      | v :: next =>
        if stop ≤ v.vmStart then .ok (s, -1)
        else s.mlinkVmaPagesRange lookup c v (max at' v.vmStart) (min stop v.vmEnd) anchor >>= fun x =>
          mlinkAreas lookup c stop anchor fuel (v :: next) (min stop v.vmEnd) x.2 x.1 := by
  simp only [mlinkAreas_eq_walkAreas]
  exact walkAreas_succ hat

/-- The value is the number of the pages found in the area in which the range ends, or -1 if there is
    no such area. -/
theorem mlinkAreas_result : ∀ {fuel : ℕ} {vmas : List Vma} {at' : ℕ} {r : ℤ} {s : Mm},
    AtAddress stop fuel vmas at' → at' < stop →
      mlinkAreas lookup c stop anchor fuel vmas at' r s = .ok (s', r') →
        (∃ v ∈ vmas, v.Ends stop ∧
          r' = (found lookup (vmaAddrs v (max at' v.vmStart) stop)).length) ∨
        (∀ v ∈ vmas, ¬ v.Ends stop) ∧ r' = -1 := by
  intro fuel
  induction fuel with
  | zero => exact fun h hat => absurd (h.fuel hat) (Nat.not_lt_zero _)
  | succ fuel ih =>
    intro vmas at' r s h hat heq
    obtain ⟨hsub, -, hmem⟩ := nextArea_spec h.tail
    -- The range does not end in an area that has been passed.
    have hpassed : ∀ v ∈ vmas, v.Ends stop → v ∈ nextArea vmas at' := fun v hv he =>
      hmem v hv (hat.trans_le he.2)
    rw [mlinkAreas_succ hat] at heq
    cases hn : nextArea vmas at' with
    | nil =>
      rw [hn] at heq hpassed
      obtain ⟨-, rfl⟩ := Prod.mk.inj (Except.ok.inj heq)
      exact .inr ⟨fun v hv he => absurd (hpassed v hv he) List.not_mem_nil, rfl⟩
    | cons v next =>
      rw [hn] at heq hpassed hsub
      obtain ⟨hareas, hnext, hatv⟩ := nextArea_cons h.areas h.tail hn
      dsimp only at heq
      by_cases hstop : stop ≤ v.vmStart
      · rw [if_pos hstop] at heq
        obtain ⟨-, rfl⟩ := Prod.mk.inj (Except.ok.inj heq)
        refine .inr ⟨fun u hu he => ?_, rfl⟩
        rcases List.mem_cons.1 (hpassed u hu he) with rfl | hu
        · exact absurd he.1 (not_lt.2 hstop)
        · have := (hnext u hu).2
          have := hareas.lt v List.mem_cons_self
          have := he.1
          omega
      · rw [if_neg hstop] at heq
        obtain ⟨⟨s₁, r₁⟩, heq₁, heq⟩ := bind_eq_ok.1 heq
        by_cases hend : min stop v.vmEnd < stop
        · rcases ih (h.next hat hn) hend heq with ⟨u, hu, he, hr⟩ | ⟨hnone, hr⟩
          · -- The range ends in a later area, which the walk enters at its start.
            rcases List.mem_cons.1 hu with rfl | hu'
            · have := he.2
              omega
            · have := hnext u hu'
              refine .inl ⟨u, hsub.subset hu, he, ?_⟩
              rw [hr, max_eq_right (by omega), max_eq_right (by omega)]
          · exact .inr ⟨fun u hu he => hnone u (hpassed u hu he) he, hr⟩
        · obtain ⟨-, rfl⟩ := mlinkAreas_end hend heq
          have hcount := mlinkVmaPagesRange_count heq₁
          rw [min_eq_left (by omega)] at hcount
          exact .inl ⟨v, hsub.subset List.mem_cons_self, ⟨by omega, by omega⟩, hcount⟩

/-- The value of a walk from the page at `start` on. -/
theorem doMlinkPages_result (h : Areas vmas) (hs : pageSize ∣ start) {len : ℕ}
    (hstop : stop = (start + len) % addressSpace)
    (heq : s.doMlinkPages vmas lookup c start len anchor = .ok (s', r)) :
    (start < stop ∧ ∃ v ∈ vmas, v.Ends stop ∧
      r = (found lookup (vmaAddrs v (max start v.vmStart) stop)).length) ∨
    (start < stop → ∀ v ∈ vmas, ¬ v.Ends stop) ∧ r = -1 := by
  rw [doMlinkPages, ← hstop] at heq
  have hfound : start < stop → ∀ v ∈ vmas, v.Ends stop → v ∈ findVma vmas start :=
    fun hlt v hv he => mem_findVma hv (hlt.trans_le he.2)
  cases hf : findVma vmas start with
  | nil =>
    rw [hf] at heq hfound
    obtain ⟨-, rfl⟩ := Prod.mk.inj (Except.ok.inj heq)
    exact .inr ⟨fun hlt v hv he => absurd (hfound hlt v hv he) List.not_mem_nil, rfl⟩
  | cons v next =>
    have hsub : (v :: next).Sublist vmas := hf ▸ List.dropWhile_sublist _
    rw [hf] at heq hfound
    dsimp only at heq
    by_cases hv : stop ≤ v.vmStart
    · rw [if_pos hv] at heq
      obtain ⟨-, rfl⟩ := Prod.mk.inj (Except.ok.inj heq)
      refine .inr ⟨fun hlt u hu he => ?_, rfl⟩
      have hareas := h.of_sublist hsub
      rcases List.mem_cons.1 (hfound hlt u hu he) with rfl | hu
      · exact absurd he.1 (not_lt.2 hv)
      · have := (List.pairwise_cons.1 hareas.sorted).1 u hu
        have := hareas.lt v List.mem_cons_self
        have := he.1
        omega
    · rw [if_neg hv] at heq
      by_cases hlt : start < stop
      · rcases mlinkAreas_result (findVma_spec h hf hs le_rfl stop) hlt heq with
          ⟨u, hu, he, hr⟩ | ⟨hnone, hr⟩
        · exact .inl ⟨hlt, u, hsub.subset hu, he, hr⟩
        · exact .inr ⟨fun _ u hu he => hnone u (hfound hlt u hu he) he, hr⟩
      · obtain ⟨-, rfl⟩ := mlinkAreas_end hlt heq
        exact .inr ⟨fun hlt' => absurd hlt' hlt, rfl⟩

/-! ## Pages that are linked again -/

/-- A page that is locked if it is the anchor. -/
def lockedPage (anchored : Bool) (x : Page) : Page := if anchored then Mlock.mlockVmaPage x else x

/-- What a page of a chain adds to the counter when it is visited, besides the number of the pages of the
    chain: it may be promoted when it is found, and again once it is locked. -/
def gain (anchored : Bool) (x : Page) : ℤ :=
  x.promotes.toNat - (lockedPage anchored x.accessed).promotes.toNat

/-- The pages to be visited are on the chain. The last one is its delegate, and the counter is the number of
    the pages, and one more if the page is inactive and visited once; and a page at the address 0 is the
    anchor. -/
structure Unaffected (s : Mm) (c : ChainRef) (l : List (ℕ × PageRef)) : Prop where
  homes : ∀ y ∈ l, s.home y.2 = some c
  last : ∀ l₀ y m, l = l₀ ++ [y] → s.chain c = some m → m.delegate = some y.2 ∧
    m.counter = m.nrLinks +
      if y.2 ∈ l₀.map Prod.snd then 0 else gain (decide (y.1 = 0)) (s.page y.2)
  anchor : ∀ y ∈ l, y.1 = 0 → ∀ m, s.chain c = some m → m.anchor = some y.2

/-- A page of a chain adds nothing, or one if it is promoted, unless it is locked. -/
theorem gain_of_linked {x : Page} (hx : x.linked = true) : gain false x = x.promotes.toNat := by
  have hpr : (lockedPage false x.accessed).promotes = false := Page.accessed_promotes hx
  rw [gain, hpr]
  simp

theorem gain_mem (b : Bool) (x : Page) : -1 ≤ gain b x ∧ gain b x ≤ 1 := by
  have h₁ := Bool.toNat_le x.promotes
  have h₂ := Bool.toNat_le (lockedPage b x.accessed).promotes
  rw [gain]
  omega

theorem gain_eq (b : Bool) (x : Page) : gain b x =
    (lockedPage b x.accessed).accessed.referenced.toNat - (lockedPage b x.accessed).referenced.toNat := by
  have hlocked : (lockedPage b x.accessed).referenced = x.accessed.referenced := by
    rw [lockedPage]
    split_ifs
    · exact Mlock.mlock_referenced _
    · rfl
  rw [hlocked, Page.accessed_referenced, Page.accessed_referenced, gain]
  cases x.promotes <;> cases (lockedPage b x.accessed).promotes <;> rfl

omit [Mlock] in
theorem linkedPage_of_home [Mlock] {b : Bool} (hp : s.home p = some c) :
    s.linkedPage c b p = lockedPage b (s.page p).accessed := by
  have hx : ({ (s.page p).accessed with chain := some c } : Page) = (s.page p).accessed := by
    rw [← show (s.page p).accessed.chain = some c from (Page.accessed_chain _).trans hp]
  rw [linkedPage, linkedTo, lockedPage, hx]

/-- What is known once pages of the chain, which was `m`, have been visited: they are not promoted any
    more. -/
structure Revisited (s : Mm) (c : ChainRef) (m : MemoryChain) (l : List (ℕ × PageRef)) (s' : Mm) :
    Prop where
  visited : Visited s c 0 l s'
  page_eq : ∀ q, q ∉ l.map Prod.snd → s'.page q = s.page q
  promotes_eq : ∀ q ∈ l.map Prod.snd, (s'.page q).promotes = false
  chain_eq : ∃ n k d, s'.chain = Function.update s.chain c
    (some { m with anchor := n, refCounter := k, delegate := d }) ∧
      (l = [] → k = m.refCounter ∧ d = m.delegate) ∧
      ∀ l₀ y, l = l₀ ++ [y] → (y.1 = 0 → l₀ = []) → d = some y.2 ∧ k = m.nrLinks +
        if y.2 ∈ l₀.map Prod.snd then 0 else gain (decide (y.1 = 0)) (s.page y.2)

theorem Revisited.step {y : ℕ × PageRef} (h : Revisited s c m l s') (hm : s.chain c = some m)
    (hy : s.home y.2 = some c) (halloc : s.allocated y.2 = true)
    (heq : s'.mlinkFound c 0 y.1 y.2 = .ok s₁) : Revisited s c m (l ++ [y]) s₁ := by
  obtain ⟨n, k, d, hchain, -⟩ := h.chain_eq
  have hm' : s'.chain c = some { m with anchor := n, refCounter := k, delegate := d } := by
    rw [hchain, Function.update_self]
  have halloc' : s'.allocated y.2 = true := by rw [h.visited.allocated_eq, halloc]
  have hy' : s'.home y.2 = some c := by
    rw [h.visited.home_eq]
    split_ifs
    · rfl
    · exact hy
  have hlinked : (s'.page y.2).linked = true := by
    rw [Page.linked, show (s'.page y.2).chain = some c from hy']
    rfl
  obtain ⟨n', hn', -, hself⟩ := mlinkFound_chain h.visited.linked hm' halloc' heq
  obtain rfl := hself hy'
  have hpage := (mlinkFound_spec h.visited.linked hm' halloc' heq).page_eq
  have hmem : ∀ q, q ∈ (l ++ [y]).map Prod.snd ↔ q ∈ l.map Prod.snd ∨ q = y.2 := fun q => by simp
  refine ⟨h.visited.step hm halloc heq, fun q hq => ?_, fun q hq => ?_, ?_⟩
  · rw [hmem, not_or] at hq
    rw [hpage, Function.update_of_ne hq.2, h.page_eq q hq.1]
  · rw [hpage]
    by_cases hqy : q = y.2
    · rw [hqy, Function.update_self]
      exact Page.accessed_promotes (by rw [Page.linked, linkedPage_chain]; rfl)
    · rw [Function.update_of_ne hqy]
      exact h.promotes_eq q (((hmem q).1 hq).resolve_right hqy)
  · refine ⟨_, _, _, by rw [hn', hchain, Function.update_idem]; rfl, fun hl => ?_,
      fun l₀ z hl hfirst => ?_⟩
    · exact absurd hl (List.append_ne_nil_of_right_ne_nil l (List.cons_ne_nil y []))
    · obtain ⟨rfl, hz⟩ := List.append_inj' hl rfl
      obtain rfl : y = z := List.cons.inj hz |>.1
      refine ⟨rfl, ?_⟩
      rw [linkedPage_of_home hy', add_sub_assoc, ← gain_eq]
      congr 1
      split_ifs with hvisited
      · -- A page visited before is not at the address 0.
        have hne : l ≠ [] := fun hnil => by simp [hnil] at hvisited
        rw [decide_eq_false fun hz => hne (hfirst hz), gain_of_linked hlinked,
          h.promotes_eq y.2 hvisited]
        rfl
      · rw [h.page_eq y.2 hvisited]

theorem mlinkPages_revisited (h : s.Linked) (hm : s.chain c = some m)
    (halloc : ∀ x ∈ l, s.allocated x.2 = true) (hhomes : ∀ y ∈ l, s.home y.2 = some c)
    (heq : s.mlinkPages c 0 l = .ok s') : Revisited s c m l s' := by
  refine foldlM_run (Revisited s c m) (fun done y _ _ hy hv heq => hv.step hm (hhomes y hy)
    (halloc y hy) heq) ⟨.nil h, fun _ _ => rfl, fun q hq => absurd hq List.not_mem_nil, m.anchor,
      m.refCounter, m.delegate, ?_, fun _ => ⟨rfl, rfl⟩, fun l₀ y hnil => ?_⟩ heq
  · rw [← hm, Function.update_eq_self]
  · exact absurd hnil.symm (List.append_ne_nil_of_right_ne_nil l₀ (List.cons_ne_nil y []))

/-- The chains are the same: a counter may have wrapped around. -/
def SameChains (s s' : Mm) : Prop :=
  ∀ d, (s'.chain d).map MemoryChain.fields = (s.chain d).map MemoryChain.fields

/-- A range changes nothing if and only if its pages are on the chain, and leave there what there
    is. -/
theorem unchanged_iff (h : s.Linked) (hm : s.chain c = some m)
    (halloc : ∀ x ∈ l, s.allocated x.2 = true) (hl : ∀ x ∈ l, lookup x.1 = some x.2)
    (hsorted : l.Pairwise (·.1 < ·.1)) (heq : s.mlinkPages c 0 l = .ok s') :
    s'.home = s.home ∧ s.SameChains s' ↔ Unaffected s c l := by
  have hvis := mlinkPages_visited h hm halloc heq
  obtain ⟨m', hm', hanchor⟩ := hvis.chain_eq m hm
  have hmc : s'.chain c = some m' := by rw [hm', Function.update_self]
  -- The address 0 comes first.
  have hfirst : ∀ l₀ y, l = l₀ ++ [y] → y.1 = 0 → l₀ = [] := fun l₀ y hl₀ hy => by
    rw [hl₀, List.pairwise_append] at hsorted
    exact List.eq_nil_iff_forall_not_mem.2 fun z hz =>
      absurd (hy ▸ hsorted.2.2 z hz y List.mem_cons_self) (Nat.not_lt_zero _)
  -- The counter that the last page leaves has not wrapped around.
  have hsmall : ∀ k (P : Prop) [Decidable P] b x, s.links c ≠ [] →
      k = m.nrLinks + (if P then 0 else gain b x) → Int.bmod k (2 ^ 32) = k :=
    fun k P _ b x hne hk => by
      have hpos := List.length_pos_of_ne_nil hne
      have hlen := h.length_le c
      rw [links_of_chain hm, maxPages] at hlen
      rw [links_of_chain hm] at hpos
      have hgain := gain_mem b x
      rw [(h.chain c m hm).nrLinks_eq] at hk
      refine Int.bmod_eq_of_le_mul_two ?_ ?_
      all_goals
        split_ifs at hk
        all_goals omega
  have hlinks : ∀ y ∈ l, s.home y.2 = some c → s.links c ≠ [] := fun y _ hy hnil =>
    absurd ((h.members.mem_iff y.2 c).2 hy) (by rw [hnil]; exact List.not_mem_nil)
  constructor
  · rintro ⟨hhome, hchain⟩
    have hhomes : ∀ y ∈ l, s.home y.2 = some c := fun y hy => by
      rw [← hhome, hvis.home_eq, if_pos (List.mem_map_of_mem hy)]
    obtain ⟨n, k, d, hnkd, -, hlast⟩ := (mlinkPages_revisited h hm halloc hhomes heq).chain_eq
    obtain rfl : m' = { m with anchor := n, refCounter := k, delegate := d } :=
      Option.some.inj (hmc.symm.trans (by rw [hnkd, Function.update_self]))
    have hfields := hchain c
    rw [hmc, hm, Option.map_some, Option.map_some] at hfields
    have hfields := Option.some.inj hfields
    refine ⟨hhomes, fun l₀ y m₁ hl₀ hm₁ => ?_, fun y hy hya m₁ hm₁ => ?_⟩
    all_goals obtain rfl : m = m₁ := Option.some.inj (hm.symm.trans hm₁)
    · obtain ⟨hd, hk⟩ := hlast l₀ y hl₀ (hfirst l₀ y hl₀)
      have hyl : y ∈ l := hl₀ ▸ List.mem_append_right l₀ List.mem_cons_self
      refine ⟨(congrArg MemoryChain.delegate hfields).symm.trans hd, ?_⟩
      rw [← hk, ← hsmall k _ _ _ (hlinks y hyl (hhomes y hyl)) hk]
      exact (congrArg MemoryChain.refCounter hfields).symm
    · rcases hanchor with ⟨x, hx, hxa, hxm⟩ | ⟨hne, -⟩
      · have hxy : lookup x.1 = some y.2 := by rw [hxa, ← hya, hl y hy]
        refine (congrArg MemoryChain.anchor hfields).symm.trans (hxm.trans ?_)
        rw [← hl x hx, hxy]
      · exact absurd hya (hne y hy)
  · intro hu
    obtain ⟨n, k, d, hnkd, hnil, hlast⟩ := (mlinkPages_revisited h hm halloc hu.homes heq).chain_eq
    obtain rfl : m' = { m with anchor := n, refCounter := k, delegate := d } :=
      Option.some.inj (hmc.symm.trans (by rw [hnkd, Function.update_self]))
    have hn : n = m.anchor := by
      rcases hanchor with ⟨x, hx, hxa, hxm⟩ | ⟨-, hkeep⟩
      · rw [hu.anchor x hx hxa m hm]
        exact hxm
      · exact hkeep
    have hkd : Int.bmod k (2 ^ 32) = m.counter ∧ d = m.delegate := by
      rcases List.eq_nil_or_concat' l with hl₀ | ⟨l₀, y, hl₀⟩
      · obtain ⟨rfl, rfl⟩ := hnil hl₀
        exact ⟨rfl, rfl⟩
      · have hyl : y ∈ l := hl₀ ▸ List.mem_append_right l₀ List.mem_cons_self
        obtain ⟨hd, hk⟩ := hlast l₀ y hl₀ (hfirst l₀ y hl₀)
        obtain ⟨hd', hk'⟩ := hu.last l₀ y m hl₀ hm
        rw [hsmall k _ _ _ (hlinks y hyl (hu.homes y hyl)) hk]
        exact ⟨hk.trans hk'.symm, hd.trans hd'.symm⟩
    refine ⟨funext fun q => ?_, fun e => ?_⟩
    · rw [hvis.home_eq]
      split_ifs with hq
      · obtain ⟨y, hy, rfl⟩ := List.mem_map.1 hq
        exact (hu.homes y hy).symm
      · rfl
    · by_cases he : e = c
      · rw [he, hmc, hm, Option.map_some, Option.map_some, MemoryChain.fields, MemoryChain.counter,
          hkd.1, hkd.2, hn, MemoryChain.fields]
      · rw [hm', Function.update_of_ne he]

/-! ## The range of a call -/

omit [Mlock]

instance (v : Vma) (a : ℕ) : Decidable (v.Has a) := inferInstanceAs (Decidable (_ ∧ _ ∧ _))

/-- The end of the range of a call. -/
def linkStop (start len : ℕ) : ℕ :=
  (pageMask start + pageAlign ((len + start % pageSize) % addressSpace)) % addressSpace

/-- The pages that a call visits, with their addresses: those found in an area, but for guard pages. -/
def visitedPages (vmas : List Vma) (lookup : ℕ → Option PageRef) (start len : ℕ) :
    List (ℕ × PageRef) :=
  found lookup ((pageAddrs (pageMask start) (linkStop start len)).filter fun a =>
    ∃ v ∈ vmas, v.Has a)

theorem visitedPages_eq (h : Areas vmas) (lookup : ℕ → Option PageRef) (start len : ℕ) :
    found lookup (rangeAddrs vmas (pageMask start) (pageAlign ((len + start % pageSize) %
      addressSpace))) = visitedPages vmas lookup start len := by
  have hdvd := (pageMask_spec start).1
  obtain ⟨hsorted, hmem⟩ := rangeAddrsFrom_spec h hdvd le_rfl
    (Nat.lt_add_of_pos_right (by decide : 0 < pageSize)) (linkStop start len)
  refine congrArg (found lookup) (List.Pairwise.eq_of_mem_iff hsorted
    ((pageAddrs_sorted _ _).filter _) fun a => ?_)
  refine (hmem a).trans ?_
  rw [List.mem_filter, mem_pageAddrs hdvd, decide_eq_true_iff, and_assoc, and_assoc]

/-- Two areas in which a range ends are the same. -/
theorem Areas.ends_unique (h : Areas vmas) {u v : Vma} (hu : u ∈ vmas) (hv : v ∈ vmas)
    (hue : u.Ends stop) (hve : v.Ends stop) : u = v := by
  have : Std.Symm fun u v : Vma => u.Ends stop → v.Ends stop → u = v :=
    ⟨fun _ _ huv hv hu => (huv hu hv).symm⟩
  have hsep : vmas.Pairwise fun u v => u.Ends stop → v.Ends stop → u = v :=
    h.sorted.imp fun hab ha hb => absurd hb.1 (not_lt.2 (ha.2.trans hab))
  exact hsep.forall_of_forall (fun _ _ _ _ => rfl) hu hv hue hve

/-- A range whose pages are in areas does not wrap around: its end is rounded up to a page. -/
theorem Areas.linkStop_spec (h : Areas vmas) (hend : ∀ v ∈ vmas, v.vmEnd < addressSpace) {len : ℕ}
    (hpos : pageMask start < start + len)
    (hmapped : ∀ a, pageSize ∣ a → pageMask start ≤ a → a < start + len →
      ∃ v ∈ vmas, v.vmStart ≤ a ∧ a < v.vmEnd) :
    pageMask start + pageSize ≤ linkStop start len ∧ pageSize ∣ linkStop start len ∧
      linkStop start len - pageSize < start + len ∧ ∃ v ∈ vmas, v.Ends (linkStop start len) := by
  obtain ⟨n, hn⟩ : ∃ n, (start + len + (pageSize - 1)) / pageSize = n + 1 :=
    Nat.exists_eq_add_one_of_ne_zero (by rw [pageMask, pageSize] at *; omega)
  obtain ⟨v, hv, hvs, hve⟩ := hmapped (n * pageSize) ⟨n, Nat.mul_comm _ _⟩
    (by rw [pageMask, pageSize] at *; omega) (by rw [pageSize] at *; omega)
  obtain ⟨j, hj⟩ := h.dvd_end v hv
  have hstop : (n + 1) * pageSize ≤ v.vmEnd := by
    rw [hj] at hve ⊢
    rw [pageSize] at *
    omega
  have hwrap : (start + len + (pageSize - 1)) / pageSize * pageSize < addressSpace := by
    rw [hn]
    exact hstop.trans_lt (hend v hv)
  have heq : linkStop start len = (n + 1) * pageSize := hn ▸ (range_end hwrap).2
  rw [heq]
  refine ⟨?_, ⟨n + 1, Nat.mul_comm _ _⟩, ?_, v, hv, ?_, hstop⟩
  · rw [pageMask, pageSize] at *
    omega
  · rw [pageSize] at *
    omega
  · rw [pageSize] at *
    omega

/-! ## The contract -/

/-- What the value of a call is to be: 0 if the pages of the range are found and linked, and negative
    only if nothing has changed. -/
structure LinkContract (vmas : List Vma) (lookup : ℕ → Option PageRef) (chain : ChainRef)
    (start len : ℕ) (s s' : Mm) (r : ℤ) : Prop where
  zero : (∀ a, pageSize ∣ a → pageMask start ≤ a → a < start + len →
    ∃ p, pageAt vmas lookup a = some p ∧ s'.home p = some chain) → r = 0
  unchanged : r < 0 → s'.home = s.home ∧ s.SameChains s'

/-- Every page of the range is found, and is visited or on the chain. -/
def Linkable (vmas : List Vma) (lookup : ℕ → Option PageRef) (chain : ChainRef) (start len : ℕ)
    (s : Mm) : Prop :=
  ∀ a, pageSize ∣ a → pageMask start ≤ a → a < start + len → ∃ p, pageAt vmas lookup a = some p ∧
    (p ∈ (visitedPages vmas lookup start len).map Prod.snd ∨ s.home p = some chain)

/-- The range ends in the guard page of a stack. -/
def EndsInGuard (vmas : List Vma) (start len : ℕ) : Prop :=
  pageMask start < linkStop start len ∧ ∃ v ∈ vmas, v.Ends (linkStop start len) ∧
    isStackGuardPage v (linkStop start len - pageSize) = true

/-- A range whose pages are linked ends in a guard page, and one that ends in a hole leaves the chain
    as it is. -/
structure ReturnsRight [Mlock] (vmas : List Vma) (lookup : ℕ → Option PageRef) (chain : ChainRef)
    (start len : ℕ) (s : Mm) : Prop where
  guard : Linkable vmas lookup chain start len s → EndsInGuard vmas start len
  hole : pageMask start < linkStop start len → (∀ v ∈ vmas, ¬ v.Ends (linkStop start len)) →
    s.Unaffected chain (visitedPages vmas lookup start len)

/-- The pages of a range whose pages are linked are in areas, and are found. -/
theorem Linkable.found_of_mem {chain : ChainRef} {len a : ℕ} (h : Linkable vmas lookup chain start len s)
    (ha : pageSize ∣ a) (hle : pageMask start ≤ a) (hlt : a < start + len) :
    (∃ v ∈ vmas, v.vmStart ≤ a ∧ a < v.vmEnd) ∧ ∃ p, lookup a = some p := by
  obtain ⟨p, hp, -⟩ := h a ha hle hlt
  rw [pageAt] at hp
  split_ifs at hp with hin
  have hmask : pageMask a = a := by
    rw [pageMask, Nat.mod_eq_zero_of_dvd ha, Nat.sub_zero]
  exact ⟨hin, p, hmask ▸ hp⟩

/-- A range without a page ends where it starts. -/
theorem linkStop_of_le {start len : ℕ} (h : start + len ≤ pageMask start) :
    linkStop start len ≤ pageMask start := by
  obtain ⟨hlen, hmod⟩ : len = 0 ∧ start % pageSize = 0 := by
    rw [pageMask] at h
    have := Nat.mod_le start pageSize
    omega
  rw [linkStop, hlen, hmod]
  exact Nat.mod_le _ _

/-- Under the areas, the last page of a range whose pages are linked decides. -/
theorem Linkable.count_eq_zero_iff {chain : ChainRef} {len : ℕ} (hv : Areas vmas)
    (hend : ∀ v ∈ vmas, v.vmEnd < addressSpace) (hpos : pageMask start < start + len)
    (h : Linkable vmas lookup chain start len s) {v : Vma} (hmem : v ∈ vmas)
    (he : v.Ends (linkStop start len)) :
    found lookup (vmaAddrs v (max (pageMask start) v.vmStart) (linkStop start len)) = [] ↔
      EndsInGuard vmas start len := by
  obtain ⟨hlast, hdvd, hlt, -⟩ := hv.linkStop_spec hend hpos fun a ha hle hlt => (h.found_of_mem ha hle hlt).1
  obtain ⟨⟨i, hi⟩, -, -⟩ := pageMask_spec start
  have hps : 0 < pageSize := by decide
  obtain ⟨j, hj⟩ := hdvd
  obtain ⟨k, hk⟩ := hv.dvd_start v hmem
  have hdvdLast : pageSize ∣ linkStop start len - pageSize := ⟨j - 1, by
    rw [hj, Nat.mul_sub, Nat.mul_one]⟩
  have hstart : pageSize ∣ max (pageMask start) v.vmStart := by
    rcases max_choice (pageMask start) v.vmStart with hmax | hmax
    all_goals rw [hmax]
    · exact ⟨i, hi⟩
    · exact ⟨k, hk⟩
  have hvlast : v.vmStart ≤ linkStop start len - pageSize := by
    have := he.1
    rw [hj, hk] at *
    rw [pageSize] at *
    omega
  have haddrs : ∀ b, b ∈ vmaAddrs v (max (pageMask start) v.vmStart) (linkStop start len) ↔ _ :=
    fun b => mem_vmaAddrs hstart (le_max_right _ _)
  constructor
  · intro hnil
    refine ⟨by omega, v, hmem, he, ?_⟩
    by_contra hguard
    rw [Bool.not_eq_true] at hguard
    obtain ⟨p, hp⟩ := (h.found_of_mem hdvdLast (by omega) hlt).2
    have hfound : (linkStop start len - pageSize, p) ∈ found lookup
        (vmaAddrs v (max (pageMask start) v.vmStart) (linkStop start len)) :=
      mem_found_iff.2 ⟨hp, (haddrs _).2 ⟨hdvdLast, max_le (by omega) hvlast, by omega, hguard⟩⟩
    rw [hnil] at hfound
    cases hfound
  · rintro ⟨-, u, hu, hue, hguard⟩
    obtain rfl := hv.ends_unique hu hmem hue he
    -- The guard page is the only page of the area that is in the range.
    refine List.eq_nil_iff_forall_not_mem.2 fun x hx => ?_
    obtain ⟨⟨n, hn⟩, hle, hlt', hno⟩ := (haddrs x.1).1 (mem_found_iff.1 hx).2
    have hfirst : u.vmStart = linkStop start len - pageSize := by
      rw [isStackGuardPage, Bool.and_eq_true, decide_eq_true_iff] at hguard
      exact hguard.2
    have hx1 : x.1 = linkStop start len - pageSize := by
      have := (le_max_right _ _).trans hle
      rw [hn, hj] at *
      rw [pageSize] at *
      omega
    rw [hx1, hguard] at hno
    cases hno

/-- Where the pages of the range are linked, the call returns 0 if and only if it ends in a guard
    page. -/
theorem Linkable.eq_zero_iff {chain : ChainRef} {len : ℕ} (hv : Areas vmas)
    (hend : ∀ v ∈ vmas, v.vmEnd < addressSpace) (h : Linkable vmas lookup chain start len s)
    (hres : (pageMask start < linkStop start len ∧ ∃ v ∈ vmas, v.Ends (linkStop start len) ∧
      r = (found lookup (vmaAddrs v (max (pageMask start) v.vmStart) (linkStop start len))).length) ∨
      (pageMask start < linkStop start len → ∀ v ∈ vmas, ¬ v.Ends (linkStop start len)) ∧ r = -1) :
    r = 0 ↔ EndsInGuard vmas start len := by
  rcases lt_or_ge (pageMask start) (start + len) with hpos | hpos
  · obtain ⟨hlast, -, -, v, hve, he⟩ := hv.linkStop_spec hend hpos fun a ha hle hlt =>
      (h.found_of_mem ha hle hlt).1
    have hlt : pageMask start < linkStop start len :=
      (Nat.lt_add_of_pos_right (by decide : 0 < pageSize)).trans_le hlast
    rcases hres with ⟨-, u, hu, hue, rfl⟩ | ⟨hnone, -⟩
    · rw [← h.count_eq_zero_iff hv hend hpos hu hue, Nat.cast_eq_zero, List.length_eq_zero_iff]
    · exact absurd he (hnone hlt v hve)
  · -- The range has no pages, and the value is negative.
    have hstop := linkStop_of_le hpos
    refine iff_of_false (fun hr => ?_) fun hg => absurd hg.1 (not_lt.2 hstop)
    rcases hres with ⟨hlt, -⟩ | ⟨-, rfl⟩
    · exact absurd hlt (not_lt.2 hstop)
    · cases hr

variable [Mlock]

/-- A call returns what it should if and only if its range ends in a guard page, in case its pages are
    linked, and leaves the chain as it is, in case it ends in a hole. -/
theorem linkAddrRng_iff (h : s.Linked) (hv : Areas vmas) (hend : ∀ v ∈ vmas, v.vmEnd < addressSpace)
    (halloc : ∀ a p, lookup a = some p → s.allocated p = true) {c' : ℕ} {mcc : MemoryChainCollection}
    {len : ℕ} (hc : s.chainOf tsk c' = .ok (some (mcc, c))) (hm : s.chain c = some m)
    (heq : s.linkAddrRng vmas lookup tsk c' start len = .ok (s', r)) :
    LinkContract vmas lookup c start len s s' r ↔ ReturnsRight vmas lookup c start len s := by
  rw [linkAddrRng, hc, ok_bind] at heq
  have hdvd := (pageMask_spec start).1
  have hrun := doMlinkPages_ok heq
  rw [visitedPages_eq hv] at hrun
  have hallocl : ∀ x ∈ visitedPages vmas lookup start len, s.allocated x.2 = true :=
    fun x hx => halloc x.1 x.2 (mem_found hx).1
  have hvis := mlinkPages_visited h hm hallocl hrun
  have hres := doMlinkPages_result hv hdvd (rfl : linkStop start len = _) heq
  have hlinkable : (∀ a, pageSize ∣ a → pageMask start ≤ a → a < start + len →
      ∃ p, pageAt vmas lookup a = some p ∧ s'.home p = some c) ↔
        Linkable vmas lookup c start len s := by
    refine forall_congr' fun a => forall_congr' fun _ => forall_congr' fun _ => forall_congr' fun _ =>
      exists_congr fun p => and_congr_right fun _ => ?_
    rw [hvis.home_eq]
    split_ifs with hp
    · exact iff_of_true rfl (.inl hp)
    · exact (or_iff_right hp).symm
  have hneg : (r < 0 → s'.home = s.home ∧ s.SameChains s') ↔
      (pageMask start < linkStop start len → (∀ v ∈ vmas, ¬ v.Ends (linkStop start len)) →
        s.Unaffected c (visitedPages vmas lookup start len)) := by
    have hiff := unchanged_iff h hm hallocl (fun x hx => (mem_found hx).1)
      (found_sorted lookup ((pageAddrs_sorted _ _).filter _)) hrun
    rcases hres with ⟨-, u, hu, hue, rfl⟩ | ⟨hnone, rfl⟩
    · exact iff_of_true (fun hr => absurd hr (not_lt.2 (Nat.cast_nonneg _))) fun _ hno =>
        absurd hue (hno u hu)
    · rw [hiff]
      refine ⟨fun hu _ _ => hu (by decide), fun hu _ => ?_⟩
      rcases lt_or_ge (pageMask start) (linkStop start len) with hlt | hlt
      · exact hu hlt (hnone hlt)
      · -- The range has no pages.
        have hnil : visitedPages vmas lookup start len = [] := by
          rw [visitedPages, pageAddrs_of_le hlt]
          rfl
        rw [← hiff, ← Except.ok.inj ((congrArg (s.mlinkPages c 0) hnil).symm.trans hrun)]
        exact ⟨rfl, fun _ => rfl⟩
  constructor
  · intro hcon
    exact ⟨fun hl => (Linkable.eq_zero_iff hv hend hl hres).1 (hcon.zero (hlinkable.2 hl)),
      hneg.1 hcon.unchanged⟩
  · intro hret
    exact ⟨fun hl => (Linkable.eq_zero_iff hv hend (hlinkable.1 hl) hres).2 (hret.guard (hlinkable.1 hl)),
      hneg.2 hret.hole⟩

end

/-! ## A page that is linked -/

/-- The page found in an area of one page. -/
def onePage (a : ℕ) : Option PageRef := if a = 4096 then some 0 else none

theorem onePage_eq_some {a : ℕ} {p : PageRef} (hp : onePage a = some p) : a = 4096 ∧ p = 0 := by
  rw [onePage] at hp
  split_ifs at hp with ha
  exact ⟨ha, (Option.some.inj hp).symm⟩

set_option maxRecDepth 8000 in
/-- A page is linked by a range that ends with its area, and by one that ends in a hole; and the page that
    is linked already is linked again. -/
theorem linked_run : let _ := Mlock.flag
    ∃ s s₁ s₂, System.Reachable s ∧ s.home 0 = none ∧
      s.linkAddrRng [⟨4096, 8192, false⟩] onePage 0 0 4096 4096 = .ok (s₁, 1) ∧ s₁.home 0 = some 7 ∧
      s.linkAddrRng [⟨4096, 8192, false⟩] onePage 0 0 4096 8192 = .ok (s₂, -1) ∧ s₂.home 0 = some 7 ∧
      System.Reachable s₁ ∧ s₁.allocated 0 = true ∧
      s₁.chainOf 0 0 = .ok (some (⟨1, 255, some 7 :: List.replicate 254 none⟩, 7)) ∧
      s₁.chain 7 = some ⟨0, none, 1, [0], none, 1, some 0, 0⟩ ∧ (s₁.page 0).promotes = false ∧
      ∃ s₃, s₁.linkAddrRng [⟨4096, 8192, false⟩] onePage 0 0 4096 8192 = .ok (s₃, -1) := by
  let _ := Mlock.flag
  have hs : System.Reachable ({} : Mm) :=
    .init ⟨fun _ => rfl, fun _ => rfl, fun _ => rfl, fun _ h => nomatch h⟩
  obtain ⟨s, hr, hhome, h₀, ⟨s₁, heq₁, hs₁, h₁⟩, s₂, heq₂, hs₂⟩ : ∃ s,
      System.RunBy (fun _ _ => True) {} [.allocPage 0, .newMemChain 0 7] s ∧ s.home 0 = none ∧
      s.allocated 0 = true ∧
      (∃ s₁, s.linkAddrRng [⟨4096, 8192, false⟩] onePage 0 0 4096 4096 = .ok (s₁, 1) ∧
        s₁.home 0 = some 7 ∧ s₁.allocated 0 = true ∧
        s₁.chainOf 0 0 = .ok (some (⟨1, 255, some 7 :: List.replicate 254 none⟩, 7)) ∧
        s₁.chain 7 = some ⟨0, none, 1, [0], none, 1, some 0, 0⟩ ∧ (s₁.page 0).promotes = false ∧
        ∃ s₃, s₁.linkAddrRng [⟨4096, 8192, false⟩] onePage 0 0 4096 8192 = .ok (s₃, -1)) ∧
      ∃ s₂, s.linkAddrRng [⟨4096, 8192, false⟩] onePage 0 0 4096 8192 = .ok (s₂, -1) ∧
        s₂.home 0 = some 7 :=
    ⟨_, .cons trivial ⟨⟨rfl, by decide⟩, rfl⟩ (.cons trivial ⟨rfl, rfl⟩ .nil), rfl, rfl,
      ⟨_, rfl, rfl, rfl, rfl, rfl, rfl, _, rfl⟩, _, rfl, rfl⟩
  refine ⟨s, s₁, s₂, hr.reachable hs, hhome, heq₁, hs₁, heq₂, hs₂, (hr.reachable hs).step trivial
    (i := Op.linkAddrRng [⟨4096, 8192, false⟩] onePage 0 0 4096 4096) ⟨fun a p hp => ?_, ?_⟩, h₁⟩
  · exact (onePage_eq_some hp).2 ▸ h₀
  · exact congrArg (Except.map Prod.fst) heq₁

/-- The page is linked again by a range that ends in a hole. -/
theorem linkAddrRng_iff_again : let _ := Mlock.flag
    ∃ s s', System.Reachable s ∧ s.home 0 = some 7 ∧
      s.linkAddrRng [⟨4096, 8192, false⟩] onePage 0 0 4096 8192 = .ok (s', -1) ∧
      LinkContract [⟨4096, 8192, false⟩] onePage 7 4096 8192 s s' (-1) := by
  let _ := Mlock.flag
  obtain ⟨-, s, -, -, -, -, hhome, -, -, hs, h₀, hc, hm, hpr, s', heq⟩ := linked_run
  have hareas : Areas [⟨4096, 8192, false⟩] := by
    refine ⟨?_, ?_, ?_, ?_⟩
    all_goals decide
  have hvisited : visitedPages [⟨4096, 8192, false⟩] onePage 4096 8192 = [(4096, 0)] := by decide
  refine ⟨s, s', hs, hhome, heq, (linkAddrRng_iff (reachable_covers hs).1 hareas (by decide)
    (fun a p hp => (onePage_eq_some hp).2 ▸ h₀) hc hm heq).2 ⟨fun hl => ?_, fun _ _ => ?_⟩⟩
  · -- The second page of the range is not found.
    obtain ⟨p, hp, -⟩ := hl 8192 ⟨2, rfl⟩ (by decide) (by decide)
    rw [show pageAt [⟨4096, 8192, false⟩] onePage 8192 = none by decide] at hp
    cases hp
  · rw [hvisited]
    refine ⟨fun y hy => ?_, fun l₀ y m hl hm' => ?_, fun y hy hy0 => ?_⟩
    · obtain rfl := List.mem_singleton.1 hy
      exact hhome
    · have hy : l₀ = [] ∧ [y] = [(4096, 0)] :=
        List.append_inj' (hl.symm.trans (List.nil_append _).symm) rfl
      obtain rfl := hy.1
      obtain rfl : y = (4096, 0) := List.cons.inj hy.2 |>.1
      obtain rfl := Option.some.inj (hm.symm.trans hm')
      have hlinked : (s.page 0).linked = true := by
        rw [Page.linked, show (s.page 0).chain = some 7 from hhome]
        rfl
      have hgain : gain (decide ((4096, 0).1 = 0)) (s.page (4096, 0).2) = 0 := by
        rw [decide_eq_false (by decide), gain_of_linked hlinked, hpr]
        rfl
      rw [hgain]
      exact ⟨rfl, by decide⟩
    · obtain rfl := List.mem_singleton.1 hy
      cases hy0

/-- A call that links its range returns 1, and one that links a page before a hole returns -1. -/
theorem link_returns_count : let _ := Mlock.flag
    ∃ s s₁ s₂, System.Reachable s ∧
      s.linkAddrRng [⟨4096, 8192, false⟩] onePage 0 0 4096 4096 = .ok (s₁, 1) ∧
      ¬ LinkContract [⟨4096, 8192, false⟩] onePage 7 4096 4096 s s₁ 1 ∧
      s.linkAddrRng [⟨4096, 8192, false⟩] onePage 0 0 4096 8192 = .ok (s₂, -1) ∧
      ¬ LinkContract [⟨4096, 8192, false⟩] onePage 7 4096 8192 s s₂ (-1) := by
  let _ := Mlock.flag
  obtain ⟨s, s₁, s₂, hs, hhome, heq₁, hs₁, heq₂, hs₂, -⟩ := linked_run
  refine ⟨s, s₁, s₂, hs, heq₁, fun hcon => ?_, heq₂, fun hcon => ?_⟩
  · have hone : (1 : ℤ) = 0 := hcon.zero fun a ha hle hlt => by
      obtain rfl : a = 4096 := by
        obtain ⟨i, rfl⟩ := ha
        rw [show pageMask 4096 = 4096 by decide, pageSize] at hle
        rw [pageSize] at hlt ⊢
        omega
      exact ⟨0, by decide, hs₁⟩
    cases hone
  · rw [(hcon.unchanged (by decide)).1, hhome] at hs₂
    cases hs₂

end Mcpq.Kernel.Mm
