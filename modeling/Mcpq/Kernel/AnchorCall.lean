import Mcpq.Kernel.Visits
import Mcpq.Kernel.Walk

/-!
# The anchor of a chain

The system call `anchor` should link the page of an address to a chain, and no other page, and make it
the anchor of the chain, unless it fails (`AnchorEffect`).

The call links a range whose length is that of a page and of the offset of the address in its page,
rounded up: these are two pages, unless the address is that of a page. It returns 0 for each valid
descriptor. The call does what it should if and only if the page is found, or is the anchor already,
and no second page is linked with it (`anchor_iff`).
-/

namespace Mcpq.Kernel.Mm

variable {s s' : Mm} {p q : PageRef} {chain : ChainRef} {m : MemoryChain} {vmas : List Vma}
  {lookup : ℕ → Option PageRef} {a addr c : ℕ} {tsk : TaskRef} {r : ℤ}

/-- The length of the range of a call. -/
def anchorLen (addr : ℕ) : ℕ := pageAlign ((pageSize + addr % pageSize) % addressSpace)

/-- What the call is to do: at most the page of the address is linked, and it is the anchor if the
    call succeeds. -/
structure AnchorEffect (vmas : List Vma) (lookup : ℕ → Option PageRef) (chain : ChainRef) (addr : ℕ)
    (s s' : Mm) (r : ℤ) : Prop where
  home_eq : ∀ q, pageAt vmas lookup addr ≠ some q → s'.home q = s.home q
  links : ∀ q, pageAt vmas lookup addr = some q → s'.home q = s.home q ∨ s'.home q = some chain
  anchors : r = 0 → ∃ p m, pageAt vmas lookup addr = some p ∧ s'.home p = some chain ∧
    s'.chain chain = some m ∧ m.anchor = some p

/-- The page of the address is found, or is the anchor; the page that follows is not found, or is on
    the chain, or is the same page, unless the address is that of a page. -/
structure Anchorable (vmas : List Vma) (lookup : ℕ → Option PageRef) (chain : ChainRef) (addr : ℕ)
    (s : Mm) : Prop where
  first : ∃ p, pageAt vmas lookup addr = some p ∧ ((∃ v ∈ vmas, v.Has (pageMask addr)) ∨
    ∃ m, s.chain chain = some m ∧ m.anchor = some p)
  second : addr % pageSize ≠ 0 → (∃ v ∈ vmas, v.Has (pageMask addr + pageSize)) → ∀ q,
    lookup (pageMask addr + pageSize) = some q →
      pageAt vmas lookup addr = some q ∨ s.home q = some chain

/-- The range of a call ends after one page or two. -/
theorem anchorLen_eq (addr : ℕ) :
    anchorLen addr = if addr % pageSize = 0 then pageSize else 2 * pageSize := by
  rw [anchorLen, pageAlign, pageMask, pageSize, addressSpace]
  split_ifs
  all_goals omega

/-- An area that contains the page of an address contains the address. -/
theorem Areas.pageAt_eq (h : Areas vmas) (hv : ∃ v ∈ vmas, v.Has (pageMask addr)) :
    pageAt vmas lookup addr = lookup (pageMask addr) := by
  obtain ⟨v, hv, hstart, hend, -⟩ := hv
  obtain ⟨hdvd, hle, hlt⟩ := pageMask_spec addr
  refine if_pos ⟨v, hv, hstart.trans hle, hlt.trans_le ?_⟩
  obtain ⟨i, hi⟩ := hdvd
  obtain ⟨j, hj⟩ := h.dvd_end v hv
  rw [hi, hj] at hend
  rw [hi, hj]
  rw [pageSize] at *
  omega

/-- The pages that a call visits. -/
theorem mem_anchorAddrs (h : Areas vmas) (hwrap : pageMask addr + anchorLen addr < addressSpace) :
    a ∈ rangeAddrs vmas (pageMask addr) (anchorLen addr) ↔
      (a = pageMask addr ∨ addr % pageSize ≠ 0 ∧ a = pageMask addr + pageSize) ∧
        ∃ v ∈ vmas, v.Has a := by
  obtain ⟨hdvd, -, -⟩ := pageMask_spec addr
  have hpos : 0 < pageSize := by decide
  have hmem := (rangeAddrsFrom_spec h hdvd le_rfl (Nat.lt_add_of_pos_right hpos)
    ((pageMask addr + anchorLen addr) % addressSpace)).2 a
  refine hmem.trans ?_
  rw [Nat.mod_eq_of_lt hwrap, anchorLen_eq, ← and_assoc, ← and_assoc]
  refine and_congr_left fun _ => ?_
  obtain ⟨i, hi⟩ := hdvd
  rw [hi]
  constructor
  · rintro ⟨⟨⟨j, rfl⟩, hle⟩, hlt⟩
    split_ifs at hlt with hmod
    · rw [pageSize] at *
      omega
    · rw [pageSize] at *
      omega
  · rintro (rfl | ⟨hmod, rfl⟩)
    · refine ⟨⟨⟨i, rfl⟩, le_rfl⟩, ?_⟩
      split_ifs
      all_goals omega
    · refine ⟨⟨⟨i + 1, by ring⟩, by omega⟩, ?_⟩
      rw [if_neg hmod]
      omega

variable [Mlock]

/-- The call returns 0, and has visited the pages found. -/
theorem anchor_visited (h : s.Linked) (halloc : ∀ a p, lookup a = some p → s.allocated p = true)
    {mcc : MemoryChainCollection} (hc : s.chainOf tsk c = .ok (some (mcc, chain)))
    (hm : s.chain chain = some m) (heq : s.anchor vmas lookup tsk c addr = .ok (s', r)) :
    r = 0 ∧ Visited s chain (pageMask addr)
      (found lookup (rangeAddrs vmas (pageMask addr) (anchorLen addr))) s' := by
  rw [anchor, hc, ok_bind] at heq
  obtain ⟨x, hx, heq⟩ := bind_eq_ok.1 heq
  obtain ⟨rfl, rfl⟩ := Prod.mk.inj (Except.ok.inj heq)
  exact ⟨rfl, mlinkPages_visited h hm (fun y hy => halloc y.1 y.2 (mem_found hy).1)
    (doMlinkPages_ok hx)⟩

/-- The call links the page of the address, and no other one, and anchors it if and only if the page
    is found, or is the anchor, and no second page is linked. -/
theorem anchor_iff (h : s.Linked) (hv : Areas vmas)
    (halloc : ∀ a p, lookup a = some p → s.allocated p = true) {mcc : MemoryChainCollection}
    (hc : s.chainOf tsk c = .ok (some (mcc, chain))) (hm : s.chain chain = some m)
    (hwrap : pageMask addr + anchorLen addr < addressSpace)
    (heq : s.anchor vmas lookup tsk c addr = .ok (s', r)) :
    AnchorEffect vmas lookup chain addr s s' r ↔ Anchorable vmas lookup chain addr s := by
  obtain ⟨rfl, hvis⟩ := anchor_visited h halloc hc hm heq
  obtain ⟨m', hm', hanchor⟩ := hvis.chain_eq m hm
  have hm'c : s'.chain chain = some m' := by rw [hm', Function.update_self]
  -- The walk finds the page of the address, and the next one if the address is not aligned.
  have hmem : ∀ {x : ℕ × PageRef},
      x ∈ found lookup (rangeAddrs vmas (pageMask addr) (anchorLen addr)) ↔ lookup x.1 = some x.2 ∧
        (x.1 = pageMask addr ∨ addr % pageSize ≠ 0 ∧ x.1 = pageMask addr + pageSize) ∧
          ∃ v ∈ vmas, v.Has x.1 := by
    intro x
    rw [mem_found_iff, mem_anchorAddrs hv hwrap]
  constructor
  · intro he
    obtain ⟨p, n, hp, hhome, hn, hnp⟩ := he.anchors rfl
    obtain rfl : m' = n := Option.some.inj (hm'c.symm.trans hn)
    refine ⟨⟨p, hp, ?_⟩, fun hmod hhas q hq => ?_⟩
    · -- A page that has not been visited was the anchor before.
      rcases hanchor with ⟨x, hx, hxa, -⟩ | ⟨-, hkeep⟩
      · exact .inl (hxa ▸ (hmem.1 hx).2.2)
      · exact .inr ⟨m, hm, hkeep ▸ hnp⟩
    · -- A second page that is visited is linked: as the call links no other, it was before.
      by_cases hqp : pageAt vmas lookup addr = some q
      · exact .inl hqp
      · have hvisited : q ∈ (found lookup (rangeAddrs vmas (pageMask addr) (anchorLen addr))).map
            Prod.snd := List.mem_map.2 ⟨(pageMask addr + pageSize, q),
          hmem.2 ⟨hq, .inr ⟨hmod, rfl⟩, hhas⟩, rfl⟩
        have hq' := hvis.home_eq q
        rw [if_pos hvisited, he.home_eq q hqp] at hq'
        exact .inr hq'
  · rintro ⟨⟨p, hp, hfirst⟩, hsecond⟩
    have hpage : ∀ {x : ℕ × PageRef}, lookup x.1 = some x.2 → x.1 = pageMask addr →
        (∃ v ∈ vmas, v.Has x.1) → pageAt vmas lookup addr = some x.2 := fun hx hxa hhas => by
      rw [hv.pageAt_eq (hxa ▸ hhas), ← hxa, hx]
    -- The other pages keep their chains, and this one is on the chain, as its anchor.
    refine ⟨fun q hq => ?_, fun q _ => ?_, fun _ => ⟨p, m', hp, ?_, hm'c, ?_⟩⟩
    · rw [hvis.home_eq]
      split_ifs with hvisited
      · obtain ⟨x, hx, rfl⟩ := List.mem_map.1 hvisited
        obtain ⟨hx, hxa | ⟨hmod, hxa⟩, hhas⟩ := hmem.1 hx
        · exact absurd (hpage hx hxa hhas) hq
        · exact ((hsecond hmod (hxa ▸ hhas) x.2 (hxa ▸ hx)).resolve_left hq).symm
      · rfl
    · rw [hvis.home_eq]
      split_ifs
      · exact .inr rfl
      · exact .inl rfl
    · rw [hvis.home_eq]
      split_ifs with hvisited
      · rfl
      · -- The page has been visited, or is the anchor and thus on the chain.
        rcases hfirst with hhas | ⟨n, hn, hnp⟩
        · have hx : lookup (pageMask addr) = some p := (hv.pageAt_eq hhas).symm.trans hp
          exact absurd (List.mem_map.2 ⟨(pageMask addr, p), hmem.2 ⟨hx, .inl rfl, hhas⟩, rfl⟩)
            hvisited
        · rw [← h.members.mem_iff, links_of_chain hn]
          exact (h.chain chain n hn).anchor_mem p hnp
    · rcases hanchor with ⟨x, hx, hxa, hxm⟩ | ⟨hne, hkeep⟩
      · obtain ⟨hx, -, hhas⟩ := hmem.1 hx
        rw [hxm, ← hp, hpage hx hxa hhas]
      · rcases hfirst with hhas | ⟨n, hn, hnp⟩
        · have hx : lookup (pageMask addr) = some p := (hv.pageAt_eq hhas).symm.trans hp
          exact absurd rfl (hne (pageMask addr, p) (hmem.2 ⟨hx, .inl rfl, hhas⟩))
        · obtain rfl : m = n := Option.some.inj (hm.symm.trans hn)
          rw [hkeep, hnp]

/-! ## Two pages of an area -/

omit [Mlock] in
theorem twoPages_allocated {s : Mm} (h₀ : s.allocated 0 = true) (h₁ : s.allocated 1 = true) (a : ℕ)
    (p : PageRef) (hp : twoPages a = some p) : s.allocated p = true := by
  rcases twoPages_eq_some hp with rfl | rfl
  · exact h₀
  · exact h₁

set_option maxRecDepth 8000 in
omit [Mlock] in
/-- A page is anchored by its address, and by an address in it. -/
theorem anchored_run : let _ := Mlock.flag
    ∃ s s₁ s₂, System.Reachable s ∧ s.chainOf 0 0 = .ok (some (⟨1, 255, some 7 ::
        List.replicate 254 none⟩, 7)) ∧ s.chain 7 = some { id := 0 } ∧ s.home 1 = none ∧
      s.allocated 0 = true ∧ s.allocated 1 = true ∧
      s.anchor [⟨4096, 12288, false⟩] twoPages 0 0 4096 = .ok (s₁, 0) ∧
      s.anchor [⟨4096, 12288, false⟩] twoPages 0 0 4097 = .ok (s₂, 0) ∧ s₂.home 1 = some 7 := by
  let _ := Mlock.flag
  have hs : System.Reachable ({} : Mm) :=
    .init ⟨fun _ => rfl, fun _ => rfl, fun _ => rfl, fun _ h => nomatch h⟩
  obtain ⟨s, hr, hs₁⟩ : ∃ s, System.RunBy (fun _ _ => True) {}
      [.allocPage 0, .allocPage 1, .newMemChain 0 7] s ∧ s.chainOf 0 0 = .ok (some (⟨1, 255, some 7 ::
        List.replicate 254 none⟩, 7)) ∧ s.chain 7 = some { id := 0 } ∧ s.home 1 = none ∧
      s.allocated 0 = true ∧ s.allocated 1 = true ∧
      (∃ s₁, s.anchor [⟨4096, 12288, false⟩] twoPages 0 0 4096 = .ok (s₁, 0)) ∧
      ∃ s₂, s.anchor [⟨4096, 12288, false⟩] twoPages 0 0 4097 = .ok (s₂, 0) ∧ s₂.home 1 = some 7 :=
    ⟨_, .cons trivial ⟨⟨rfl, by decide⟩, rfl⟩ (.cons trivial ⟨⟨rfl, by decide⟩, rfl⟩
      (.cons trivial ⟨rfl, rfl⟩ .nil)),
      rfl, rfl, rfl, rfl, rfl, ⟨_, rfl⟩, _, rfl, rfl⟩
  obtain ⟨hc, hm, hhome, h₀, h₁, ⟨s₁, heq₁⟩, s₂, heq₂, hhome₂⟩ := hs₁
  exact ⟨s, s₁, s₂, hr.reachable hs, hc, hm, hhome, h₀, h₁, heq₁, heq₂, hhome₂⟩

omit [Mlock] in
theorem areas_two : Areas [⟨4096, 12288, false⟩] := by
  refine ⟨?_, ?_, ?_, ?_⟩
  all_goals decide

omit [Mlock] in
/-- A call on one mapped page. -/
theorem anchor_iff_page : let _ := Mlock.flag
    ∃ s s', System.Reachable s ∧ s.anchor [⟨4096, 12288, false⟩] twoPages 0 0 4096 = .ok (s', 0) ∧
      AnchorEffect [⟨4096, 12288, false⟩] twoPages 7 4096 s s' 0 := by
  let _ := Mlock.flag
  obtain ⟨s, s₁, -, hs, hc, hm, -, h₀, h₁, heq, -⟩ := anchored_run
  refine ⟨s, s₁, hs, heq, (anchor_iff (reachable_covers hs).1 areas_two (twoPages_allocated h₀ h₁) hc
    hm (by decide) heq).2 ⟨⟨0, by decide, .inl ⟨_, List.mem_singleton_self _, ?_⟩⟩, fun hmod => ?_⟩⟩
  · exact ⟨by decide, by decide, rfl⟩
  · exact absurd rfl hmod

omit [Mlock] in
/-- The address is not that of a page, and the page that follows is linked as well. -/
theorem anchor_links_two : let _ := Mlock.flag
    ∃ s s', System.Reachable s ∧ s.anchor [⟨4096, 12288, false⟩] twoPages 0 0 4097 = .ok (s', 0) ∧
      ¬ AnchorEffect [⟨4096, 12288, false⟩] twoPages 7 4097 s s' 0 := by
  let _ := Mlock.flag
  obtain ⟨s, -, s₂, hs, -, -, hhome, -, -, -, heq, hhome₂⟩ := anchored_run
  refine ⟨s, s₂, hs, heq, fun he => ?_⟩
  rw [he.home_eq 1 (by decide), hhome] at hhome₂
  cases hhome₂

end Mcpq.Kernel.Mm
