import Mcpq.Kernel.Ranges
import Mcpq.Kernel.LruLists

/-!
# The walk of a range

The system calls `link_addr_rng` and `hate` (`mhint.c`) walk an address range over the memory areas, in
two copies of one loop, which differ in where they align the range. Over areas that are sorted and
disjoint (`Areas`), both visit the addresses of the pages of the range that lie in an area, but for the
guard pages of stacks, in increasing order (`range_walk`): the loops end, and do not leave an area.

`hate` is modelled with the loop over the addresses as the program has it (`forAddrs`); the loop ends
since the addresses do not wrap around, and visits the addresses of `pageAddrs` (`forAddrs_eq`).
-/

namespace Mcpq.Kernel.Mm

variable (s : Mm)

/-! ## Hate -/

/-- `for (addr = start; addr < end; addr += PAGE_SIZE)`, where addresses are `unsigned long`. -/
def forAddrs {σ : Type} (visit : σ → ℕ → Result σ) (stop : ℕ) : ℕ → ℕ → σ → Result σ
  | fuel, addr, s =>
    if addr < stop then
      match fuel with
      | 0 => .error .diverges
      | fuel + 1 => do
        let s ← visit s addr
        forAddrs visit stop fuel ((addr + pageSize) % addressSpace) s
    else .ok s

/-- `__hate_page`, with the level `DISLIKE`. -/
def hatePage (page : PageRef) : Mm :=
  if (s.page page).testBit .lru then
    let lru := (s.page page).lruBaseType
    let s := s.delPageFromLru page
    let s := s.modifyPage page fun p => (p.clearBit .active).clearBit .referenced
    { s with zone := s.zone.addPageToLruList page lru }
  else s

/-- An iteration of the loop of `__hate_vma_pages_range`: a page on a chain is not hated. -/
def hateAt (lookup : ℕ → Option PageRef) (s : Mm) (addr : ℕ) : Result Mm := do
  let (s, page) ← s.getUserPage lookup addr
  match page with
  | none => pure s
  | some page => pure (if (s.page page).linked then s else s.hatePage page)

/-- `__hate_vma_pages_range`: the pages of a part of an area are hated. -/
def hateVmaPagesRange (lookup : ℕ → Option PageRef) (vma : Vma) (start stop : ℕ) : Result (Mm × ℤ) :=
  if start < vma.vmStart ∨ vma.vmEnd < stop then .error .bug
  else do
    let start := if isStackGuardPage vma start then (start + pageSize) % addressSpace else start
    let s ← forAddrs (hateAt lookup) stop addressSpace start s
    pure (s, 0)

/-- The loop over the areas from the current one on, with the address `at'` it has come to, the value
    `r` to return, and what is done to an area. -/
def walkAreas (range : Mm → Vma → ℕ → ℕ → Result (Mm × ℤ)) (stop : ℕ) :
    ℕ → List Vma → ℕ → ℤ → Mm → Result (Mm × ℤ)
  | fuel, vmas, at', r, s =>
    if at' < stop then
      match fuel with
      | 0 => .error .diverges
      | fuel + 1 =>
        match nextArea vmas at' with
        | [] => .ok (s, -1)
        | vma :: next =>
          if stop ≤ vma.vmStart then .ok (s, -1)
          else do
            let e := if stop < vma.vmEnd then stop else vma.vmEnd
            let start := if at' < vma.vmStart then vma.vmStart else at'
            let (s, r) ← range s vma start e
            walkAreas range stop fuel (vma :: next) e r s
    else .ok (s, r)

/-- The walk of a range, whose first area is the one found for the address `addr`. -/
def walkRange (range : Mm → Vma → ℕ → ℕ → Result (Mm × ℤ)) (vmas : List Vma) (addr start stop : ℕ) :
    Result (Mm × ℤ) :=
  match findVma vmas addr with
  | [] => .ok (s, -1)
  | vma :: next =>
    if stop ≤ vma.vmStart then .ok (s, -1)
    else walkAreas range stop (next.length + 2) (vma :: next) start (-1) s

/-- The system call `hate`: the end of the range, and its first area, are those of the range as it is
    given; its start is that of a page. -/
def hate (vmas : List Vma) (lookup : ℕ → Option PageRef) (start len : ℕ) : Result (Mm × ℤ) :=
  s.walkRange (fun s => s.hateVmaPagesRange lookup) vmas start (pageMask start)
    ((start + len) % addressSpace)

/-- An iteration of the loop of `__mlink_vma_pages_range`. -/
def mlinkAt [Mlock] (lookup : ℕ → Option PageRef) (c : ChainRef) (anchor : ℕ) (s : Mm) (addr : ℕ) :
    Result Mm := do
  let (s, page) ← s.getUserPage lookup addr
  match page with
  | none => pure s
  | some page => s.mlinkPage c anchor addr page

variable {s} {s' : Mm} {lookup : ℕ → Option PageRef} {c : ChainRef} {anchor : ℕ} {vma : Vma}
  {vmas : List Vma} {start stop a : ℕ}

/-! ## Pages -/

theorem mem_pageAddrs (hs : pageSize ∣ start) :
    a ∈ pageAddrs start stop ↔ pageSize ∣ a ∧ start ≤ a ∧ a < stop := by
  obtain ⟨k, rfl⟩ := hs
  rw [pageAddrs, List.mem_range', pageSize]
  constructor
  · rintro ⟨i, hi, rfl⟩
    exact ⟨⟨k + i, by ring⟩, by omega, by omega⟩
  · rintro ⟨⟨j, rfl⟩, hle, hlt⟩
    exact ⟨j - k, by omega, by omega⟩

theorem pageAddrs_sorted (start stop : ℕ) : (pageAddrs start stop).Pairwise (· < ·) :=
  List.pairwise_lt_range' _ (by decide)

theorem pageAddrs_of_le (h : stop ≤ start) : pageAddrs start stop = [] := by
  rw [pageAddrs, Nat.sub_eq_zero_of_le h]
  rfl

theorem pageAddrs_of_lt (h : start < stop) :
    pageAddrs start stop = start :: pageAddrs (start + pageSize) stop := by
  have hlen : (stop - start + (pageSize - 1)) / pageSize =
      (stop - (start + pageSize) + (pageSize - 1)) / pageSize + 1 := by
    rw [pageSize]
    omega
  rw [pageAddrs, hlen, List.range'_succ, pageAddrs]

/-- The loop ends, and visits the addresses of the pages. -/
theorem forAddrs_eq {σ : Type} (visit : σ → ℕ → Result σ) (hstop : stop + pageSize ≤ addressSpace) :
    ∀ {fuel start : ℕ} (s : σ), stop ≤ start + fuel →
      forAddrs visit stop fuel start s = (pageAddrs start stop).foldlM visit s := by
  intro fuel
  induction fuel with
  | zero =>
    intro start s hfuel
    rw [forAddrs, if_neg (by omega), pageAddrs_of_le (by omega)]
    rfl
  | succ fuel ih =>
    intro start s hfuel
    rw [forAddrs]
    split_ifs with hlt
    · -- The next address does not wrap around.
      have hmod : (start + pageSize) % addressSpace = start + pageSize :=
        Nat.mod_eq_of_lt (by omega)
      have hpos : 0 < pageSize := by decide
      have hrest : ∀ s₁, forAddrs visit stop fuel ((start + pageSize) % addressSpace) s₁ =
          (pageAddrs (start + pageSize) stop).foldlM visit s₁ := fun s₁ => by
        rw [hmod]
        exact ih s₁ (by omega)
      simp only [pageAddrs_of_lt hlt, List.foldlM_cons, hrest]
    · rw [pageAddrs_of_le (not_lt.1 hlt)]
      rfl

/-! ## Areas -/

/-- The memory areas of a task: they are made of pages, and sorted. -/
structure Areas (vmas : List Vma) : Prop where
  dvd_start : ∀ v ∈ vmas, pageSize ∣ v.vmStart
  dvd_end : ∀ v ∈ vmas, pageSize ∣ v.vmEnd
  lt : ∀ v ∈ vmas, v.vmStart < v.vmEnd
  sorted : vmas.Pairwise fun u v => u.vmEnd ≤ v.vmStart

theorem Areas.of_sublist {l : List Vma} (h : Areas vmas) (hl : l.Sublist vmas) : Areas l where
  dvd_start v hv := h.dvd_start v (hl.subset hv)
  dvd_end v hv := h.dvd_end v (hl.subset hv)
  lt v hv := h.lt v (hl.subset hv)
  sorted := h.sorted.sublist hl

/-- The address is that of a page in the area that is not a guard page. -/
def Vma.Has (v : Vma) (a : ℕ) : Prop :=
  v.vmStart ≤ a ∧ a < v.vmEnd ∧ isStackGuardPage v a = false

/-- The addresses visited in an area, from the start of a page on. -/
theorem mem_vmaAddrs (hs : pageSize ∣ start) (hle : vma.vmStart ≤ start) :
    a ∈ vmaAddrs vma start stop ↔
      pageSize ∣ a ∧ start ≤ a ∧ a < stop ∧ isStackGuardPage vma a = false := by
  rw [vmaAddrs]
  by_cases hg : isStackGuardPage vma start = true
  · rw [if_pos hg, mem_pageAddrs (Dvd.dvd.add hs dvd_rfl)]
    simp only [isStackGuardPage, Bool.and_eq_true, decide_eq_true_eq] at hg
    obtain ⟨hg, rfl⟩ := hg
    simp only [isStackGuardPage, hg, Bool.true_and, decide_eq_false_iff_not]
    refine and_congr_right fun ha => ?_
    constructor
    · rintro ⟨h₁, h₂⟩
      have hpos : 0 < pageSize := by decide
      exact ⟨by omega, h₂, by omega⟩
    · rintro ⟨h₁, h₂, h₃⟩
      refine ⟨?_, h₂⟩
      obtain ⟨j, rfl⟩ := ha
      obtain ⟨k, hk⟩ := hs
      rw [hk] at h₁ h₃ ⊢
      rw [pageSize] at *
      omega
  · rw [if_neg hg, mem_pageAddrs hs]
    refine and_congr_right fun ha => and_congr_right fun h₁ => ?_
    refine ⟨fun h₂ => ⟨h₂, ?_⟩, And.left⟩
    rw [Bool.not_eq_true] at hg
    simp only [isStackGuardPage, Bool.and_eq_false_iff, decide_eq_false_iff_not] at hg ⊢
    refine hg.imp_right fun hne => ?_
    omega

theorem vmaAddrs_sorted (vma : Vma) (start stop : ℕ) : (vmaAddrs vma start stop).Pairwise (· < ·) :=
  pageAddrs_sorted _ _

theorem lt_of_mem_vmaAddrs (h : a ∈ vmaAddrs vma start stop) : a < stop := by
  rw [vmaAddrs, pageAddrs, List.mem_range', pageSize] at h
  obtain ⟨i, hi, rfl⟩ := h
  omega

/-- The areas that the loop has not passed at the address `at'`. -/
theorem nextArea_spec {at' : ℕ} (htail : ∀ v ∈ vmas.tail, at' < v.vmEnd) :
    (nextArea vmas at').Sublist vmas ∧ (∀ v ∈ nextArea vmas at', at' < v.vmEnd) ∧
      ∀ v ∈ vmas, at' < v.vmEnd → v ∈ nextArea vmas at' := by
  cases vmas with
  | nil => exact ⟨.refl [], by simp [nextArea], fun _ hv _ => absurd hv List.not_mem_nil⟩
  | cons v next =>
    rw [nextArea]
    split_ifs with hle
    · refine ⟨List.sublist_cons_self v next, htail, fun u hu hlt => ?_⟩
      rcases List.mem_cons.1 hu with rfl | hu
      · exact absurd hlt (not_lt.2 hle)
      · exact hu
    · refine ⟨.refl _, fun u hu => ?_, fun u hu _ => hu⟩
      rcases List.mem_cons.1 hu with rfl | hu
      · exact not_le.1 hle
      · exact htail u hu

/-- The next area, and the part of it that is visited. -/
theorem nextArea_cons {at' : ℕ} {v : Vma} {next : List Vma} (h : Areas vmas)
    (htail : ∀ u ∈ vmas.tail, at' < u.vmEnd) (hn : nextArea vmas at' = v :: next) :
    Areas (v :: next) ∧ (∀ u ∈ next, v.vmEnd < u.vmEnd ∧ v.vmEnd ≤ u.vmStart) ∧ at' < v.vmEnd := by
  obtain ⟨hsub, hlt, -⟩ := nextArea_spec htail
  rw [hn] at hsub hlt
  have hv := h.of_sublist hsub
  refine ⟨hv, fun u hu => ?_, hlt v List.mem_cons_self⟩
  have hle := (List.pairwise_cons.1 hv.sorted).1 u hu
  exact ⟨hle.trans_lt (hv.lt u (List.mem_cons_of_mem v hu)), hle⟩

/-- The loop has come to the end of the area, not of the range: the next one follows. -/
theorem nextArea_end {v : Vma} {next : List Vma} (hlt : min stop v.vmEnd < stop) :
    nextArea (v :: next) (min stop v.vmEnd) = next := by
  rw [nextArea, if_pos (by omega)]

/-- The addresses visited in the next area, and from its end on. -/
theorem mem_next {at' : ℕ} {v : Vma} {next : List Vma} (h : Areas vmas)
    (htail : ∀ u ∈ vmas.tail, at' < u.vmEnd) (hn : nextArea vmas at' = v :: next)
    (hdvd : pageSize ∣ at') :
    (a ∈ vmaAddrs v (max at' v.vmStart) (min stop v.vmEnd) ∨
      pageSize ∣ a ∧ min stop v.vmEnd ≤ a ∧ a < stop ∧ ∃ u ∈ v :: next, u.Has a) ↔
      pageSize ∣ a ∧ at' ≤ a ∧ a < stop ∧ ∃ u ∈ vmas, u.Has a := by
  obtain ⟨hsub, -, hmem⟩ := nextArea_spec htail
  obtain ⟨hv, hnext, hatv⟩ := nextArea_cons h htail hn
  rw [hn] at hsub hmem
  have hstart : pageSize ∣ max at' v.vmStart := by
    rcases max_choice at' v.vmStart with hm | hm
    all_goals rw [hm]
    · exact hdvd
    · exact hv.dvd_start v List.mem_cons_self
  rw [mem_vmaAddrs hstart (le_max_right _ _)]
  constructor
  · rintro (⟨ha, hle, hlt, hguard⟩ | ⟨ha, hle, hlt, u, hu, hua⟩)
    · exact ⟨ha, by omega, by omega, v, hsub.subset List.mem_cons_self, by omega, by omega, hguard⟩
    · exact ⟨ha, by omega, hlt, u, hsub.subset hu, hua⟩
  · rintro ⟨ha, hle, hlt, u, hu, hua⟩
    have hu' := hmem u hu (hle.trans_lt hua.2.1)
    by_cases hae : a < min stop v.vmEnd
    · -- The areas after this one start where it ends, or later.
      obtain rfl : u = v := by
        rcases List.mem_cons.1 hu' with rfl | hu'
        · rfl
        · have := (hnext u hu').2
          have := hua.1
          omega
      exact .inl ⟨ha, max_le hle hua.1, hae, hua.2.2⟩
    · exact .inr ⟨ha, not_lt.1 hae, hlt, u, hu', hua⟩

/-! ## The walk -/

/-- What the walk needs to know of its areas, and of the address it has come to. -/
structure AtAddress (stop fuel : ℕ) (vmas : List Vma) (at' : ℕ) : Prop where
  areas : Areas vmas
  tail : ∀ v ∈ vmas.tail, at' < v.vmEnd
  aligned : at' < stop → pageSize ∣ at'
  fuel : at' < stop → (nextArea vmas at').length < fuel

/-- The walk goes on at the end of the next area, or of the range. -/
theorem AtAddress.next {fuel at' : ℕ} {v : Vma} {next : List Vma}
    (h : AtAddress stop (fuel + 1) vmas at') (hat : at' < stop) (hn : nextArea vmas at' = v :: next) :
    AtAddress stop fuel (v :: next) (min stop v.vmEnd) := by
  obtain ⟨hv, hnext, -⟩ := nextArea_cons h.areas h.tail hn
  have hfuel := h.fuel hat
  rw [hn] at hfuel
  refine ⟨hv, fun u hu => (min_le_right _ _).trans_lt (hnext u hu).1, fun hlt => ?_, fun hlt => ?_⟩
  · rw [min_eq_right (by omega)]
    exact hv.dvd_end v List.mem_cons_self
  · rw [nextArea_end hlt]
    exact Nat.lt_of_succ_lt_succ hfuel

/-- An iteration of the loop, as far as the addresses are concerned. -/
theorem areaAddrs_succ {fuel at' : ℕ} (hat : at' < stop) :
    areaAddrs stop (fuel + 1) vmas at' = match nextArea vmas at' with
      | [] => []
      | v :: next =>
        if stop ≤ v.vmStart then []
        else vmaAddrs v (max at' v.vmStart) (min stop v.vmEnd) ++
          areaAddrs stop fuel (v :: next) (min stop v.vmEnd) := by
  rw [areaAddrs, if_pos hat]
  cases nextArea vmas at' with
  | nil => rfl
  | cons v next =>
    have hmax : (if at' < v.vmStart then v.vmStart else at') = max at' v.vmStart :=
      (max_def_lt at' v.vmStart).symm
    have hmin : (if stop < v.vmEnd then stop else v.vmEnd) = min stop v.vmEnd :=
      (min_def_lt stop v.vmEnd).symm
    dsimp only
    rw [hmax, hmin]

/-- An iteration of the loop over the areas. -/
theorem walkAreas_succ {range : Mm → Vma → ℕ → ℕ → Result (Mm × ℤ)} {fuel at' : ℕ} {r : ℤ} {s : Mm}
    (hat : at' < stop) :
    walkAreas range stop (fuel + 1) vmas at' r s = match nextArea vmas at' with
      | [] => .ok (s, -1)
      | v :: next =>
        if stop ≤ v.vmStart then .ok (s, -1)
        else range s v (max at' v.vmStart) (min stop v.vmEnd) >>= fun x =>
          walkAreas range stop fuel (v :: next) (min stop v.vmEnd) x.2 x.1 := by
  rw [walkAreas, if_pos hat]
  cases nextArea vmas at' with
  | nil => rfl
  | cons v next =>
    have hmax : (if at' < v.vmStart then v.vmStart else at') = max at' v.vmStart :=
      (max_def_lt at' v.vmStart).symm
    have hmin : (if stop < v.vmEnd then stop else v.vmEnd) = min stop v.vmEnd :=
      (min_def_lt stop v.vmEnd).symm
    dsimp only
    rw [hmax, hmin]

/-- The addresses visited from the current area on, in increasing order. -/
theorem areaAddrs_spec : ∀ {fuel : ℕ} {vmas : List Vma} {at' : ℕ}, AtAddress stop fuel vmas at' →
    (areaAddrs stop fuel vmas at').Pairwise (· < ·) ∧ ∀ a, a ∈ areaAddrs stop fuel vmas at' ↔
      pageSize ∣ a ∧ at' ≤ a ∧ a < stop ∧ ∃ v ∈ vmas, v.Has a := by
  have hdone : ∀ {at' : ℕ} {vmas : List Vma}, ¬ at' < stop → ([] : List ℕ).Pairwise (· < ·) ∧
      ∀ a, a ∈ ([] : List ℕ) ↔ pageSize ∣ a ∧ at' ≤ a ∧ a < stop ∧ ∃ v ∈ vmas, v.Has a :=
    fun hat => ⟨.nil, fun a => iff_of_false List.not_mem_nil fun ha => hat (ha.2.1.trans_lt ha.2.2.1)⟩
  -- By induction on the fuel, of which there is one for each page that is left.
  intro fuel
  induction fuel with
  | zero =>
    intro vmas at' h
    have hat : ¬ at' < stop := fun hat => absurd (h.fuel hat) (Nat.not_lt_zero _)
    rw [areaAddrs, if_neg hat]
    exact hdone hat
  | succ fuel ih =>
    intro vmas at' h
    by_cases hat : at' < stop
    · rw [areaAddrs_succ hat]
      obtain ⟨-, -, hmem⟩ := nextArea_spec h.tail
      cases hn : nextArea vmas at' with
      | nil =>
        -- There is no area after the address.
        refine ⟨.nil, fun a => iff_of_false List.not_mem_nil ?_⟩
        rintro ⟨-, ha, -, v, hv, -, hva, -⟩
        have := hmem v hv (ha.trans_lt hva)
        rw [hn] at this
        cases this
      | cons v next =>
        obtain ⟨hv, hnext, hatv⟩ := nextArea_cons h.areas h.tail hn
        dsimp only
        by_cases hstop : stop ≤ v.vmStart
        · -- The areas that are left start after the range.
          rw [if_pos hstop]
          refine ⟨.nil, fun a => iff_of_false List.not_mem_nil ?_⟩
          rintro ⟨-, ha, hlt, u, hu, hua, hau, -⟩
          rw [hn] at hmem
          rcases List.mem_cons.1 (hmem u hu (ha.trans_lt hau)) with rfl | hu
          · omega
          · have := (hnext u hu).2
            have := hv.lt v List.mem_cons_self
            omega
        · rw [if_neg hstop]
          -- The addresses of the area come first, and then those from the end of the area on.
          obtain ⟨hsorted, hrest⟩ := ih (h.next hat hn)
          refine ⟨List.pairwise_append.2 ⟨vmaAddrs_sorted _ _ _, hsorted, fun x hx y hy => ?_⟩,
            fun a => ?_⟩
          · refine lt_of_lt_of_le ?_ ((hrest y).1 hy).2.1
            exact lt_of_mem_vmaAddrs hx
          · rw [List.mem_append, hrest]
            exact mem_next h.areas h.tail hn (h.aligned hat)
    · rw [areaAddrs, if_neg hat]
      exact hdone hat

/-- The walk does at each address visited what is done there in its area. -/
theorem walkAreas_spec {range : Mm → Vma → ℕ → ℕ → Result (Mm × ℤ)} {visit : Mm → ℕ → Result Mm}
    (hrange : ∀ s v b e, v.vmStart ≤ b → b < e → e ≤ v.vmEnd → e ≤ stop →
      (range s v b e).map Prod.fst = (vmaAddrs v b e).foldlM visit s) :
    ∀ {fuel : ℕ} {vmas : List Vma} {at' : ℕ} (r : ℤ) (s : Mm), AtAddress stop fuel vmas at' →
      (walkAreas range stop fuel vmas at' r s).map Prod.fst =
        (areaAddrs stop fuel vmas at').foldlM visit s := by
  intro fuel
  induction fuel with
  | zero =>
    intro vmas at' r s h
    have hat : ¬ at' < stop := fun hat => absurd (h.fuel hat) (Nat.not_lt_zero _)
    rw [walkAreas, areaAddrs, if_neg hat, if_neg hat]
    rfl
  | succ fuel ih =>
    intro vmas at' r s h
    by_cases hat : at' < stop
    · rw [areaAddrs_succ hat, walkAreas_succ hat]
      cases hn : nextArea vmas at' with
      | nil => rfl
      | cons v next =>
        obtain ⟨hv, -, hatv⟩ := nextArea_cons h.areas h.tail hn
        dsimp only
        by_cases hstop : stop ≤ v.vmStart
        · rw [if_pos hstop, if_pos hstop]
          rfl
        · have hlt := hv.lt v List.mem_cons_self
          rw [if_neg hstop, if_neg hstop, List.foldlM_append, ← hrange s v _ _ (le_max_right _ _)
            (by omega) (min_le_right _ _) (min_le_left _ _)]
          -- A visit that fails ends the walk.
          cases range s v (max at' v.vmStart) (min stop v.vmEnd) with
          | error e => rfl
          | ok x => exact ih x.2 x.1 (h.next hat hn)
    · rw [walkAreas, areaAddrs, if_neg hat, if_neg hat]
      rfl

/-! ## The system calls -/

/-- The addresses visited in a range that ends at `stop`, from the page at `start` on, where the first
    area is found by the address `addr`. -/
def rangeAddrsFrom (vmas : List Vma) (addr start stop : ℕ) : List ℕ :=
  match findVma vmas addr with
  | [] => []
  | vma :: next =>
    if stop ≤ vma.vmStart then [] else areaAddrs stop (next.length + 2) (vma :: next) start

/-- The first area found is the one that the walk starts from. -/
theorem findVma_spec {addr : ℕ} {v : Vma} {next : List Vma} (h : Areas vmas)
    (hf : findVma vmas addr = v :: next) (hs : pageSize ∣ start) (hle : start ≤ addr) (stop : ℕ) :
    AtAddress stop (next.length + 2) (v :: next) start := by
  have hsub : (v :: next).Sublist vmas := hf ▸ List.dropWhile_sublist _
  have hv := h.of_sublist hsub
  have haddr : addr < v.vmEnd := by
    have := List.head?_dropWhile_not (fun vma : Vma => decide (vma.vmEnd ≤ addr)) vmas
    rw [show vmas.dropWhile (fun vma => decide (vma.vmEnd ≤ addr)) = v :: next from hf] at this
    simpa using this
  refine ⟨hv, fun u hu => ?_, fun _ => hs, fun _ => ?_⟩
  · have := (List.pairwise_cons.1 hv.sorted).1 u hu
    have := hv.lt u (List.mem_cons_of_mem v hu)
    omega
  · rw [nextArea]
    split_ifs
    · omega
    · exact Nat.lt_succ_self _

/-- The areas that are not found end before the range. -/
theorem mem_findVma {addr : ℕ} {v : Vma} (hv : v ∈ vmas) (hlt : addr < v.vmEnd) :
    v ∈ findVma vmas addr := by
  rw [findVma]
  induction vmas with
  | nil => cases hv
  | cons u vmas ih =>
    rw [List.dropWhile_cons]
    split_ifs with hu
    · rcases List.mem_cons.1 hv with rfl | hv
      · exact absurd hlt (not_lt.2 (of_decide_eq_true hu))
      · exact ih hv
    · exact hv

theorem rangeAddrsFrom_spec {addr : ℕ} (h : Areas vmas) (hs : pageSize ∣ start) (hle : start ≤ addr)
    (hlt : addr < start + pageSize) (stop : ℕ) :
    (rangeAddrsFrom vmas addr start stop).Pairwise (· < ·) ∧
      ∀ a, a ∈ rangeAddrsFrom vmas addr start stop ↔
        pageSize ∣ a ∧ start ≤ a ∧ a < stop ∧ ∃ v ∈ vmas, v.Has a := by
  -- An area with a page of the range ends after the address.
  have hfound : ∀ a v, pageSize ∣ a → start ≤ a → v ∈ vmas → v.Has a → v ∈ findVma vmas addr := by
    intro a v ha hsa hv hva
    refine mem_findVma hv ?_
    obtain ⟨i, rfl⟩ := hs
    obtain ⟨j, rfl⟩ := ha
    obtain ⟨k, hk⟩ := h.dvd_end v hv
    have := hva.2.1
    rw [pageSize] at *
    omega
  rw [rangeAddrsFrom]
  cases hf : findVma vmas addr with
  | nil =>
    refine ⟨.nil, fun a => iff_of_false List.not_mem_nil ?_⟩
    rintro ⟨ha, hsa, -, v, hv, hva⟩
    have := hfound a v ha hsa hv hva
    rw [hf] at this
    cases this
  | cons v next =>
    have hsub : (v :: next).Sublist vmas := hf ▸ List.dropWhile_sublist _
    dsimp only
    by_cases hstop : stop ≤ v.vmStart
    · rw [if_pos hstop]
      refine ⟨.nil, fun a => iff_of_false List.not_mem_nil ?_⟩
      rintro ⟨ha, hsa, hlt, u, hu, hua⟩
      have hu' := hfound a u ha hsa hu hua
      rw [hf] at hu'
      have hv := h.of_sublist hsub
      have hua := hua.1
      rcases List.mem_cons.1 hu' with rfl | hu'
      · omega
      · have := (List.pairwise_cons.1 hv.sorted).1 u hu'
        have := hv.lt v List.mem_cons_self
        omega
    · rw [if_neg hstop]
      obtain ⟨hsorted, hmem⟩ := areaAddrs_spec (findVma_spec h hf hs hle stop)
      refine ⟨hsorted, fun a => ?_⟩
      rw [hmem]
      refine and_congr_right fun ha => and_congr_right fun hsa => and_congr_right fun _ => ?_
      constructor
      · rintro ⟨u, hu, hua⟩
        exact ⟨u, hsub.subset hu, hua⟩
      · rintro ⟨u, hu, hua⟩
        exact ⟨u, hf ▸ hfound a u ha hsa hu hua, hua⟩

/-- The walk of a range, from the area that is found for it on. -/
theorem walkRange_spec {range : Mm → Vma → ℕ → ℕ → Result (Mm × ℤ)} {visit : Mm → ℕ → Result Mm}
    (hrange : ∀ s v b e, v.vmStart ≤ b → b < e → e ≤ v.vmEnd → e ≤ stop →
      (range s v b e).map Prod.fst = (vmaAddrs v b e).foldlM visit s) {addr : ℕ} (h : Areas vmas)
    (hs : pageSize ∣ start) (hle : start ≤ addr) (s : Mm) :
    (s.walkRange range vmas addr start stop).map Prod.fst =
      (rangeAddrsFrom vmas addr start stop).foldlM visit s := by
  rw [walkRange, rangeAddrsFrom]
  cases hf : findVma vmas addr with
  | nil => rfl
  | cons v next =>
    dsimp only
    by_cases hstop : stop ≤ v.vmStart
    · rw [if_pos hstop, if_pos hstop]
      rfl
    · rw [if_neg hstop, if_neg hstop]
      exact walkAreas_spec hrange _ s (findVma_spec h hf hs hle stop)

/-- What is done in an area by `hate`. -/
theorem hateVmaPagesRange_spec (hstop : stop + pageSize ≤ addressSpace) (s : Mm) {b e : ℕ}
    (hb : vma.vmStart ≤ b) (hbe : b < e) (he : e ≤ vma.vmEnd) (hes : e ≤ stop) :
    (s.hateVmaPagesRange lookup vma b e).map Prod.fst =
      (vmaAddrs vma b e).foldlM (hateAt lookup) s := by
  have hmod : (b + pageSize) % addressSpace = b + pageSize := Nat.mod_eq_of_lt (by omega)
  have hbug : ¬ (b < vma.vmStart ∨ vma.vmEnd < e) := by omega
  have hfuel : ∀ b', e ≤ b' + addressSpace := fun b' => by omega
  rw [hateVmaPagesRange, if_neg hbug, vmaAddrs, hmod]
  dsimp only
  rw [forAddrs_eq _ (by omega) _ (hfuel _)]
  cases (pageAddrs (if isStackGuardPage vma b = true then b + pageSize else b) e).foldlM
      (hateAt lookup) s with
  | error e => rfl
  | ok s' => rfl

section

variable [Mlock]

theorem mlinkAddrs_fst (s : Mm) (lookup : ℕ → Option PageRef) (c : ChainRef) (anchor : ℕ)
    (addrs : List ℕ) : (s.mlinkAddrs lookup c anchor addrs).map Prod.fst =
      addrs.foldlM (mlinkAt lookup c anchor) s := by
  rw [mlinkAddrs]
  generalize (0 : ℤ) = n
  induction addrs generalizing s n with
  | nil => rfl
  | cons addr addrs ih =>
    rw [List.foldlM_cons, List.foldlM_cons, mlinkAt]
    dsimp only
    cases s.getUserPage lookup addr with
    | error e => rfl
    | ok x =>
      obtain ⟨s₀, page⟩ := x
      cases page with
      | none => exact ih s₀ n
      | some page =>
        simp only [ok_bind]
        cases s₀.mlinkPage c anchor addr page with
        | error e => rfl
        | ok s₁ => exact ih s₁ (n + 1)

/-- What is done in an area by `link_addr_rng`. -/
theorem mlinkVmaPagesRange_spec (s : Mm) {b e : ℕ} (hb : vma.vmStart ≤ b) (he : e ≤ vma.vmEnd) :
    (s.mlinkVmaPagesRange lookup c vma b e anchor).map Prod.fst =
      (vmaAddrs vma b e).foldlM (mlinkAt lookup c anchor) s := by
  have hbug : ¬ (b < vma.vmStart ∨ vma.vmEnd < e) := by omega
  rw [mlinkVmaPagesRange, if_neg hbug, mlinkAddrs_fst]

theorem mlinkAreas_eq_walkAreas (lookup : ℕ → Option PageRef) (c : ChainRef) (stop anchor : ℕ) :
    ∀ (fuel : ℕ) (vmas : List Vma) (at' : ℕ) (r : ℤ) (s : Mm),
      mlinkAreas lookup c stop anchor fuel vmas at' r s = walkAreas
        (fun s vma b e => s.mlinkVmaPagesRange lookup c vma b e anchor) stop fuel vmas at' r s := by
  intro fuel
  induction fuel with
  | zero =>
    intro vmas at' r s
    rw [mlinkAreas, walkAreas]
  | succ fuel ih =>
    intro vmas at' r s
    rw [mlinkAreas, walkAreas]
    cases nextArea vmas at' with
    | nil => rfl
    | cons v next => simp only [ih]

/-- The walk of `do_mlink_pages`. -/
theorem doMlinkPages_walk (h : Areas vmas) (hs : pageSize ∣ start) (s : Mm)
    (lookup : ℕ → Option PageRef) (c : ChainRef) (len anchor : ℕ) :
    (s.doMlinkPages vmas lookup c start len anchor).map Prod.fst =
      (rangeAddrsFrom vmas start start ((start + len) % addressSpace)).foldlM
        (mlinkAt lookup c anchor) s := by
  have hwalk : (s.walkRange (fun s vma b e => s.mlinkVmaPagesRange lookup c vma b e anchor) vmas start
      start ((start + len) % addressSpace)).map Prod.fst = _ :=
    walkRange_spec (fun s v b e hb _ he _ => mlinkVmaPagesRange_spec s hb he) h hs le_rfl s
  rw [← hwalk, doMlinkPages, walkRange]
  cases findVma vmas start with
  | nil => rfl
  | cons v next => simp only [mlinkAreas_eq_walkAreas]

end

/-- The end of a range is rounded up to a page. -/
theorem range_end {len : ℕ}
    (hwrap : (start + len + (pageSize - 1)) / pageSize * pageSize < addressSpace) :
    start + len + pageSize ≤ addressSpace ∧
      (pageMask start + pageAlign ((len + start % pageSize) % addressSpace)) % addressSpace =
        (start + len + (pageSize - 1)) / pageSize * pageSize := by
  rw [pageAlign, pageMask, pageMask]
  rw [pageSize, addressSpace] at *
  omega

/-- The addresses that `link_addr_rng` and `hate` visit. -/
theorem range_walk [Mlock] (h : Areas vmas) {len : ℕ}
    (hwrap : (start + len + (pageSize - 1)) / pageSize * pageSize < addressSpace) :
    ∃ addrs : List ℕ, addrs.Pairwise (· < ·) ∧
      (∀ a, a ∈ addrs ↔ pageSize ∣ a ∧ pageMask start ≤ a ∧ a < start + len ∧
        ∃ v ∈ vmas, v.vmStart ≤ a ∧ a < v.vmEnd ∧ isStackGuardPage v a = false) ∧
      (∀ s lookup tsk c mcc chain, s.chainOf tsk c = .ok (some (mcc, chain)) →
        (s.linkAddrRng vmas lookup tsk c start len).map Prod.fst =
          addrs.foldlM (mlinkAt lookup chain 0) s) ∧
      ∀ s lookup, (s.hate vmas lookup start len).map Prod.fst = addrs.foldlM (hateAt lookup) s := by
  obtain ⟨hstop, hend⟩ := range_end hwrap
  have hs : pageSize ∣ pageMask start := ⟨start / pageSize, by
    rw [pageMask, pageSize]
    omega⟩
  have hmask : pageMask start ≤ start ∧ start < pageMask start + pageSize := by
    rw [pageMask, pageSize]
    omega
  have hpos : 0 < pageSize := by decide
  obtain ⟨hsorted, hmem⟩ := rangeAddrsFrom_spec h hs hmask.1 hmask.2 (start + len)
  obtain ⟨hsorted', hmem'⟩ := rangeAddrsFrom_spec h hs le_rfl (Nat.lt_add_of_pos_right hpos)
    ((start + len + (pageSize - 1)) / pageSize * pageSize)
  -- The pages of the range are those of the range that is rounded up.
  have heq : rangeAddrsFrom vmas (pageMask start) (pageMask start)
      ((start + len + (pageSize - 1)) / pageSize * pageSize) =
        rangeAddrsFrom vmas start (pageMask start) (start + len) := by
    refine List.Pairwise.eq_of_mem_iff hsorted' hsorted fun a => ?_
    rw [hmem, hmem']
    refine and_congr_right fun ha => and_congr_right fun _ => and_congr_left fun _ => ?_
    obtain ⟨i, rfl⟩ := ha
    rw [pageSize]
    omega
  refine ⟨_, hsorted, hmem, fun s lookup tsk c mcc chain hchain => ?_, fun s lookup => ?_⟩
  · rw [← heq, ← hend, ← doMlinkPages_walk h hs, linkAddrRng, hchain]
    rfl
  · have hmod : (start + len) % addressSpace = start + len := Nat.mod_eq_of_lt (by omega)
    rw [hate, hmod]
    exact walkRange_spec (fun s v b e => hateVmaPagesRange_spec hstop s) h hs hmask.1 s

/-- A stack with its guard page, a hole, and another area; the range is not made of pages. -/
theorem range_walk_hole : let _ := Mlock.flag
    ∃ addrs : List ℕ, addrs.Pairwise (· < ·) ∧
      (∀ a, a ∈ addrs ↔ pageSize ∣ a ∧ pageMask 5000 ≤ a ∧ a < 5000 + 13000 ∧
        ∃ v ∈ [⟨4096, 12288, true⟩, ⟨16384, 20480, false⟩], v.vmStart ≤ a ∧ a < v.vmEnd ∧
          isStackGuardPage v a = false) ∧
      (∀ s lookup tsk c mcc chain, s.chainOf tsk c = .ok (some (mcc, chain)) →
        (linkAddrRng s [⟨4096, 12288, true⟩, ⟨16384, 20480, false⟩] lookup tsk c 5000 13000).map
          Prod.fst = addrs.foldlM (mlinkAt lookup chain 0) s) ∧
      ∀ s lookup, (hate s [⟨4096, 12288, true⟩, ⟨16384, 20480, false⟩] lookup 5000 13000).map
        Prod.fst = addrs.foldlM (hateAt lookup) s := by
  let _ := Mlock.flag
  have h : Areas [⟨4096, 12288, true⟩, ⟨16384, 20480, false⟩] := by
    refine ⟨?_, ?_, ?_, ?_⟩
    all_goals decide
  exact range_walk h
    (by decide : (5000 + 13000 + (pageSize - 1)) / pageSize * pageSize < addressSpace)

end Mcpq.Kernel.Mm
