import Mcpq.Kernel.PageAlloc.Allocate
import Mcpq.Kernel.PageAlloc.PerCpu

/-!
# The holders of pages

The pages of the zone are free, or held in blocks, by those that have allocated them or on the lists of
a CPU: `Custody` says that none of them is two of these, and that none is lost. An allocation adds a
block to those that are held (`Custody.alloc`), and freeing a block that is held drops it
(`Custody.free`), so that moving pages between a zone and the lists of a CPU keeps it
(`rmqueueBulkLoop_spec`, `bulkLoop_spec`).
-/

namespace Mcpq.Kernel.PageAlloc

/-- The pages in `F` are the free ones and those of the blocks in `H`, which are held. -/
structure Custody (c : Config) (F : Set ℕ) (z : Zone) (H : List (ℕ × ℕ)) : Prop where
  ok : Ok c z
  packing : IsPacking c.maxOrder H
  disjoint : Disjoint (covered z.free) (pagesOf H)
  covered_eq : covered z.free ∪ pagesOf H = F
  inZone : ∀ x ∈ F, c.InZone x

variable {c : Config} {F : Set ℕ} {z z' : Zone} {H H' : List (ℕ × ℕ)} {o p t : ℕ} {b : ℕ × ℕ}

namespace Custody

theorem perm (h : Custody c F z H) (hp : H.Perm H') : Custody c F z H' where
  ok := h.ok
  packing := h.packing.perm hp
  disjoint := pagesOf_perm hp ▸ h.disjoint
  covered_eq := pagesOf_perm hp ▸ h.covered_eq
  inZone := h.inZone

/-- A page that is held is not free. -/
theorem not_covered (h : Custody c F z H) (hb : b ∈ H) : b.2 ∉ covered z.free := fun hx =>
  Set.disjoint_left.1 h.disjoint hx ⟨b.1, b.2, hb, self_mem_blockOf b.1 b.2⟩

/-- A page is free or held. -/
theorem ncard (h : Custody c F z H) : (covered z.free).ncard + weight H = F.ncard := by
  obtain ⟨hfin, hcard⟩ := h.packing.finite
  rw [← h.covered_eq, Set.ncard_union_eq h.disjoint h.ok.ncard_covered.1 hfin, hcard]

/-- The pages of a block that is not held any more are free. -/
theorem ncard_cons (h : Custody c F z ((o, p) :: H)) (h' : Custody c F z' H) :
    ((covered z'.free).ncard : ℤ) = (covered z.free).ncard + 2 ^ o := by
  have hcard := h.ncard
  have hcard' := h'.ncard
  rw [weight_cons] at hcard
  have heq : (covered z'.free).ncard = (covered z.free).ncard + 2 ^ o := by omega
  rw [heq]
  push_cast
  rfl

theorem alloc (h : Custody c F z H) (ha : Allocates c z o z' p) : Custody c F z' ((o, p) :: H) := by
  have hcov := ha.covered_eq
  have hd := h.disjoint
  rw [← hcov, Set.disjoint_union_left] at hd
  refine ⟨ha.ok, IsPacking.cons_iff.2 ⟨ha.order_lt, ha.aligned, hd.2, h.packing⟩, ?_, ?_, h.inZone⟩
  · rw [pagesOf_cons, Set.disjoint_union_right]
    exact ⟨hd.1, ha.disjoint.symm⟩
  · rw [pagesOf_cons, Set.union_comm (pagesOf H), ← Set.union_assoc, hcov, h.covered_eq]

theorem alloc_page_eq (h : Custody c F z H) (ha : Allocates c z o z' p) (hb : b ∈ H) :
    z'.page b.2 = z.page b.2 := ha.page_eq _ (h.not_covered hb)

theorem inZone_block (h : Custody c F z ((o, p) :: H)) : ∀ x ∈ blockOf o p, c.InZone x :=
  fun x hx => h.inZone x (h.covered_eq ▸ .inr (pagesOf_cons ▸ .inr hx))

theorem disjoint_block (h : Custody c F z ((o, p) :: H)) :
    Disjoint (blockOf o p) (covered z.free) := by
  have hd := h.disjoint
  rw [pagesOf_cons, Set.disjoint_union_right] at hd
  exact hd.2.symm

theorem free (h : Custody c F z ((o, p) :: H)) (ht : t < migrateIsolate) :
    Custody c F (freeOnePage c z p o t) H := by
  obtain ⟨ho, hp, hd, hpack⟩ := IsPacking.cons_iff.1 h.packing
  obtain ⟨hok, hcov, -⟩ := freeOnePage_spec h.ok ho hp ht h.disjoint_block h.inZone_block
  have hd' := h.disjoint
  have hall := h.covered_eq
  rw [pagesOf_cons] at hd' hall
  refine ⟨hok, hpack, ?_, ?_, h.inZone⟩
  · rw [hcov, Set.disjoint_union_left]
    exact ⟨(Set.disjoint_union_right.1 hd').1, hd⟩
  · rw [hcov, Set.union_right_comm, Set.union_assoc, hall]

theorem free_page_eq (h : Custody c F z ((o, p) :: H)) (ht : t < migrateIsolate) (hb : b ∈ H) :
    (freeOnePage c z p o t).page b.2 = z.page b.2 := by
  obtain ⟨ho, hp, hd, -⟩ := IsPacking.cons_iff.1 h.packing
  refine (freeOnePage_spec h.ok ho hp ht h.disjoint_block h.inZone_block).2.2 _ ?_
  rintro (hx | hx)
  · exact h.not_covered (List.mem_cons_of_mem _ hb) hx
  · exact Set.disjoint_left.1 hd hx ⟨b.1, b.2, hb, self_mem_blockOf b.1 b.2⟩

/-- The field `private` of a page that is held is free to use. -/
theorem setPagePrivate (h : Custody c F z H) (hb : b ∈ H) (priv : ℕ) :
    Custody c F (z.setPagePrivate b.2 priv) H := by
  have hnot := h.not_covered hb
  refine ⟨⟨h.ok.system, h.ok.nodup, h.ok.type_eq, h.ok.type_lt, fun o t q hq => ?_,
    fun q hq hbuddy => ?_, h.ok.inZone, h.ok.nrFree_eq⟩, h.packing, h.disjoint, h.covered_eq, h.inZone⟩
  · have hne : q ≠ b.2 := by
      rintro rfl
      exact hnot ⟨o, b.2, ⟨t, hq⟩, self_mem_blockOf o b.2⟩
    exact (Function.update_of_ne hne ..).trans (h.ok.page_eq o t q hq)
  · change (Function.update z.page b.2 { z.page b.2 with priv } q).buddy = true at hbuddy
    have hne : q ≠ b.2 := by
      rintro rfl
      rw [Function.update_self] at hbuddy
      exact hnot ⟨_, b.2, h.ok.listed _ hq hbuddy, self_mem_blockOf _ _⟩
    rw [Function.update_of_ne hne] at hbuddy
    change ((Function.update z.page b.2 { z.page b.2 with priv } q).priv, q) ∈ z.free
    rw [Function.update_of_ne hne]
    exact h.ok.listed q hq hbuddy

/-- A block is held as single pages from now on. -/
theorem split (h : Custody c F z ((o, p) :: H)) : Custody c F z (singles o p ++ H) := by
  obtain ⟨ho, -, hd, hpack⟩ := IsPacking.cons_iff.1 h.packing
  have hpages : pagesOf (singles o p ++ H) = pagesOf ((o, p) :: H) := by
    rw [pagesOf_append, pagesOf_singles, pagesOf_cons, Set.union_comm]
  refine ⟨h.ok, IsPacking.append_iff.2 ⟨isPacking_singles (Nat.zero_lt_of_lt ho), hpack, ?_⟩,
    hpages ▸ h.disjoint, hpages ▸ h.covered_eq, h.inZone⟩
  rw [pagesOf_singles]
  exact hd

/-- The blocks are held by others. -/
theorem mem_disjoint (h : Custody c F z (b :: H)) {b' : ℕ × ℕ} (hb : b' ∈ H) : b'.2 ≠ b.2 := by
  have hd := (IsPacking.cons_iff.1 h.packing).2.2.1
  intro heq
  exact Set.disjoint_left.1 hd (self_mem_blockOf b.1 b.2)
    ⟨b'.1, b'.2, hb, heq ▸ self_mem_blockOf b'.1 b'.2⟩

end Custody

/-! ## The lists of a CPU -/

/-- The pages on the lists of a CPU. -/
def blocksOn (lists : ℕ → List ℕ) : List (ℕ × ℕ) :=
  (List.range migratePcptypes).flatMap fun t => (lists t).map (Prod.mk 0)

/-- The pages on the lists of all CPUs. -/
def State.cached (cpus : ℕ) (s : State) : List (ℕ × ℕ) :=
  (List.range cpus).flatMap fun cpu => blocksOn (s.pageset cpu).lists

/-- The type that the pages are to be freed with is stored in them. -/
def Stamped (z : Zone) (H : List (ℕ × ℕ)) : Prop := ∀ b ∈ H, (z.page b.2).priv < migrateIsolate

theorem Stamped.of_eq (h : Stamped z H) (heq : ∀ b ∈ H, z'.page b.2 = z.page b.2) : Stamped z' H :=
  fun b hb => heq b hb ▸ h b hb

theorem stamped_perm (hp : H.Perm H') : Stamped z H ↔ Stamped z H' :=
  forall_congr' fun _ => imp_congr hp.mem_iff Iff.rfl

/-- One of several lists changes. -/
theorem exists_flatMap_perm {α : Type*} {n i : ℕ} (hi : i < n) (f : ℕ → List α) :
    ∃ R, ∀ g : ℕ → List α, (∀ j, j ≠ i → g j = f j) → ((List.range n).flatMap g).Perm (g i ++ R) := by
  refine ⟨((List.range n).erase i).flatMap f, fun g hg => ?_⟩
  refine ((List.perm_cons_erase (List.mem_range.2 hi)).flatMap_right g).trans ?_
  rw [List.flatMap_cons]
  refine .of_eq (congrArg (g i ++ ·) (List.flatMap_congr fun j hj => hg j ?_))
  exact (List.nodup_range.mem_erase_iff.1 hj).1

theorem exists_blocksOn_perm (ht : t < migratePcptypes) (lists : ℕ → List ℕ) :
    ∃ R, ∀ l, (blocksOn (Function.update lists t l)).Perm (l.map (Prod.mk 0) ++ R) := by
  obtain ⟨R, hR⟩ := exists_flatMap_perm ht fun t => (lists t).map (Prod.mk 0)
  refine ⟨R, fun l => (hR _ fun j hj => ?_).trans (.of_eq ?_)⟩
  · rw [Function.update_of_ne hj]
  · rw [Function.update_self]

/-- The last page of a list. -/
theorem blocksOn_dropLast (ht : t < migratePcptypes) {lists : ℕ → List ℕ}
    (hp : (lists t).getLast? = some p) :
    (blocksOn lists).Perm ((0, p) :: blocksOn (Function.update lists t (lists t).dropLast)) := by
  obtain ⟨R, hR⟩ := exists_blocksOn_perm ht lists
  have hlist := List.dropLast_append_getLast? p hp
  have hall := hR (lists t)
  rw [Function.update_eq_self, ← hlist, List.map_append] at hall
  refine hall.trans (.trans ?_ ((hR _).symm.cons (0, p)))
  rw [List.append_assoc]
  exact List.perm_middle

theorem exists_cached_perm {cpus cpu : ℕ} (hi : cpu < cpus) (s : State) :
    ∃ R, ∀ s' : State, (∀ j, j ≠ cpu → s'.pageset j = s.pageset j) →
      (s'.cached cpus).Perm (blocksOn (s'.pageset cpu).lists ++ R) := by
  obtain ⟨R, hR⟩ := exists_flatMap_perm hi fun cpu => blocksOn (s.pageset cpu).lists
  refine ⟨R, fun s' hs' => hR _ fun j hj => ?_⟩
  rw [hs' j hj]

/-- Pages taken off the zone are added to those taken before. -/
theorem rmqueueBulkLoop_spec (hc : c.Contiguous) {n : ℕ} {pages : List ℕ}
    (h : Custody c F z (pages.map (Prod.mk 0) ++ H)) (hz : z.Typed) (ht : t < migratePcptypes)
    (hp : Stamped z (pages.map (Prod.mk 0))) {r : Zone × List ℕ}
    (hr : rmqueueBulkLoop c 0 t n z pages = r) :
    Custody c F r.1 (r.2.map (Prod.mk 0) ++ H) ∧ r.1.Typed ∧ Stamped r.1 (r.2.map (Prod.mk 0)) ∧
      ∀ b ∈ H, r.1.page b.2 = z.page b.2 := by
  induction n generalizing z pages with
  | zero =>
    cases hr
    exact ⟨h, hz, hp, fun _ _ => rfl⟩
  | succ n ih =>
    have ht' : t < migrateIsolate := ht.trans (by decide)
    rw [rmqueueBulkLoop] at hr
    cases hs : rmqueue c z 0 t with
    | none =>
      rw [hs] at hr
      cases hr
      exact ⟨h, hz, hp, fun _ _ => rfl⟩
    | some zp =>
      obtain ⟨z₁, q⟩ := zp
      rw [hs] at hr
      have ha := rmqueue_spec hc h.ok ht' hs
      have hq := h.alloc ha
      have hset := hq.setPagePrivate List.mem_cons_self t
      have hperm : ((0, q) :: (pages.map (Prod.mk 0) ++ H)).Perm
          ((pages ++ [q]).map (Prod.mk 0) ++ H) := by
        rw [List.map_append, List.append_assoc]
        exact List.perm_middle.symm
      have hframe : ∀ b ∈ pages.map (Prod.mk 0) ++ H,
          (z₁.setPagePrivate q t).page b.2 = z.page b.2 := fun b hb =>
        (Function.update_of_ne (hq.mem_disjoint hb) ..).trans (h.alloc_page_eq ha hb)
      have hstamp : Stamped (z₁.setPagePrivate q t) ((pages ++ [q]).map (Prod.mk 0)) := by
        intro b hb
        rw [List.map_append, List.mem_append] at hb
        rcases hb with hb | hb
        · rw [hframe b (List.mem_append_left _ hb)]
          exact hp b hb
        · obtain rfl := List.mem_singleton.1 hb
          change (Function.update z₁.page q { z₁.page q with priv := t } q).priv < _
          rw [Function.update_self]
          exact ht'
      have htyped := rmqueue_typed hz ht' hs
      obtain ⟨hcust, htyped, hstamped, hpage⟩ := ih (hset.perm hperm) htyped hstamp hr
      exact ⟨hcust, htyped, hstamped, fun b hb =>
        (hpage b hb).trans (hframe b (List.mem_append_right _ hb))⟩

/-- The lists are tried in turn. -/
theorem nextList_eq_none_iff {lists : ℕ → List ℕ} {n m k : ℕ} (hm : m < migratePcptypes) :
    nextList lists n m k = none ↔ ∀ i < n, lists ((m + 1 + i) % migratePcptypes) = [] := by
  induction n generalizing m k with
  | zero => exact ⟨fun _ i hi => absurd hi (Nat.not_lt_zero i), fun _ => rfl⟩
  | succ n ih =>
    have hnext : (if m + 1 = migratePcptypes then 0 else m + 1) = (m + 1) % migratePcptypes := by
      split_ifs with heq
      · rw [heq, Nat.mod_self]
      · rw [Nat.mod_eq_of_lt (Nat.lt_of_le_of_ne hm heq)]
    have hlt : (m + 1) % migratePcptypes < migratePcptypes := Nat.mod_lt _ (by decide)
    rw [nextList, hnext]
    split_ifs with hnil
    · rw [ih hlt, Nat.forall_lt_succ_left, Nat.add_zero, and_iff_right hnil]
      refine forall₂_congr fun i _ => ?_
      rw [Nat.add_assoc, Nat.mod_add_mod, show m + 1 + (1 + i) = m + 1 + (i + 1) by omega]
    · refine ⟨nofun, fun hall => absurd (hall 0 n.succ_pos) ?_⟩
      rw [Nat.add_zero]
      exact hnil

theorem nextList_spec {lists : ℕ → List ℕ} {n m k m' k' : ℕ} (hm : m < migratePcptypes)
    (h : nextList lists n m k = some (m', k')) : m' < migratePcptypes ∧ lists m' ≠ [] := by
  induction n generalizing m k with
  | zero => cases h
  | succ n ih =>
    have hlt : (if m + 1 = migratePcptypes then 0 else m + 1) < migratePcptypes := by
      split_ifs with heq
      · decide
      · exact Nat.lt_of_le_of_ne hm heq
    rw [nextList] at h
    split_ifs at h with heq hnil hnil
    · exact ih (by rwa [if_pos heq] at hlt) h
    · cases h
      exact ⟨by decide, hnil⟩
    · exact ih (by rwa [if_neg heq] at hlt) h
    · cases h
      exact ⟨by rwa [if_neg heq] at hlt, hnil⟩

/-- There is a list to take pages from, as long as there are pages. -/
theorem exists_nextList {lists : ℕ → List ℕ} {m k : ℕ} (hm : m < migratePcptypes)
    (h : blocksOn lists ≠ []) : ∃ m' k', nextList lists migratePcptypes m k = some (m', k') ∧
      m' < migratePcptypes ∧ lists m' ≠ [] := by
  cases hs : nextList lists migratePcptypes m k with
  | none =>
    refine absurd (List.flatMap_eq_nil_iff.2 fun t ht => ?_) h
    rw [List.map_eq_nil_iff]
    have ht := List.mem_range.1 ht
    -- The number of lists that are tried before the one of the type.
    have hnil := (nextList_eq_none_iff hm).1 hs ((t + 2 - m) % migratePcptypes)
      (Nat.mod_lt _ (by decide))
    rw [Nat.add_mod_mod] at hnil
    rw [show m + 1 + (t + 2 - m) = t + migratePcptypes from ?_, Nat.add_mod_right,
      Nat.mod_eq_of_lt ht] at hnil
    · exact hnil
    · have hm : m < 3 := hm
      change _ = t + 3
      omega
  | some r => exact ⟨r.1, r.2, rfl, nextList_spec hm hs⟩

/-- The pages are freed, if there are as many. -/
theorem bulkLoop_spec {n : ℕ} {s : BulkFree} {again : Bool} {R : List (ℕ × ℕ)}
    (h : Custody c F s.zone (blocksOn s.lists ++ R)) (hp : Stamped s.zone (blocksOn s.lists))
    (hm : s.migratetype < migratePcptypes) (hagain : again = true → s.lists s.migratetype ≠ [])
    (hn : n ≤ (blocksOn s.lists).length) :
    ∃ s', bulkLoop c n s again = some s' ∧ Custody c F s'.zone (blocksOn s'.lists ++ R) ∧
      Stamped s'.zone (blocksOn s'.lists) ∧
      (blocksOn s'.lists).length + n = (blocksOn s.lists).length ∧
      s'.zone.pageblockFlags = s.zone.pageblockFlags ∧
      ∀ b ∈ R, s'.zone.page b.2 = s.zone.page b.2 := by
  induction n generalizing s again with
  | zero => exact ⟨s, rfl, h, hp, rfl, rfl, fun _ _ => rfl⟩
  | succ n ih =>
    have hne : blocksOn s.lists ≠ [] := List.length_pos_iff.1 (Nat.zero_lt_of_lt hn)
    obtain ⟨m, k, hnext, hmlt, hlist⟩ : ∃ m k, (if again then some (s.migratetype, s.batchFree)
        else nextList s.lists migratePcptypes s.migratetype s.batchFree) = some (m, k) ∧
        m < migratePcptypes ∧ s.lists m ≠ [] := by
      cases again with
      | true => exact ⟨_, _, rfl, hm, hagain rfl⟩
      | false => exact exists_nextList hm hne
    obtain ⟨q, hq⟩ := Option.ne_none_iff_exists'.1 (mt List.getLast?_eq_none_iff.1 hlist)
    rw [bulkLoop]
    dsimp only
    rw [hnext]
    dsimp only
    rw [hq]
    dsimp only
    have hperm := blocksOn_dropLast hmlt hq
    have hcust := h.perm (hperm.append_right R)
    have hpriv := hp (0, q) (hperm.mem_iff.2 List.mem_cons_self)
    have hlen := hperm.length_eq
    rw [List.length_cons] at hlen
    have hfree : Custody c F (freeOnePage c s.zone q 0 (s.zone.page q).priv) _ := hcust.free hpriv
    have hframe : ∀ b ∈ blocksOn (Function.update s.lists m (s.lists m).dropLast) ++ R,
        (freeOnePage c s.zone q 0 (s.zone.page q).priv).page b.2 = s.zone.page b.2 := fun b hb =>
      hcust.free_page_eq hpriv hb
    have hstamp : Stamped (freeOnePage c s.zone q 0 (s.zone.page q).priv)
        (blocksOn (Function.update s.lists m (s.lists m).dropLast)) := fun b hb => by
      rw [hframe b (List.mem_append_left _ hb)]
      exact hp b (hperm.mem_iff.2 (List.mem_cons_of_mem _ hb))
    have hbound : n ≤ (blocksOn (Function.update s.lists m (s.lists m).dropLast)).length := by omega
    have hnonempty : (decide (k - 1 ≠ 0) && decide ((s.lists m).dropLast ≠ [])) = true →
        Function.update s.lists m (s.lists m).dropLast m ≠ [] := by
      rw [Function.update_self, Bool.and_eq_true, decide_eq_true_iff, decide_eq_true_iff]
      exact And.right
    obtain ⟨s', hs', hcust', hstamp', hlen', hflags, hpage⟩ := ih
      (s := ⟨freeOnePage c s.zone q 0 (s.zone.page q).priv,
        Function.update s.lists m (s.lists m).dropLast, m, k - 1⟩) hfree hstamp hmlt hnonempty hbound
    refine ⟨s', hs', hcust', hstamp', ?_, hflags.trans freeOnePage_pageblockFlags, fun b hb =>
      (hpage b hb).trans (hframe b (List.mem_append_right _ hb))⟩
    rw [← Nat.add_assoc, hlen', hlen]

end Mcpq.Kernel.PageAlloc
