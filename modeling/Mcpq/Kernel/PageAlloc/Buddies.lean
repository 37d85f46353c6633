import Mcpq.Kernel.PageAlloc.Zone
import Mcpq.Lib.Buddy
import Mathlib.Algebra.BigOperators.Group.Finset.Basic
import Mathlib.Algebra.BigOperators.Group.Finset.Piecewise
import Mathlib.Algebra.BigOperators.Ring.Finset
import Mathlib.Data.Set.Card
import Mathlib.Data.Set.Finite.Lattice
import Mathlib.Order.Interval.Finset.Nat
import Mathlib.Data.Int.Notation

/-!
# The buddies of a zone

The invariant of the free lists (`Ok`): the blocks on them are a buddy system of pages of the zone, each
on one list, and its first page is marked with its order; no other page of the zone is marked. The isolation
of page blocks is not modelled, so the lists of `MIGRATE_ISOLATE` are empty. Taking
a block off its list keeps it (`Ok.remove`), and so does adding one whose buddy is not free (`Ok.add`):
`freeOnePage_spec` and `expand_spec` follow the merging and the splitting of blocks with these two.
-/

namespace Mcpq.Kernel.PageAlloc

open Finset

/-- The page is one of the zone. -/
def Config.InZone (c : Config) (p : ℕ) : Prop :=
  c.pfnValidWithin p = true ∧ c.pageZoneId p = c.zoneId

/-- The free blocks, by their orders and their first pages. -/
def Zone.free (z : Zone) : Set (ℕ × ℕ) := {b | ∃ t, b.2 ∈ z.freeList b.1 t}

/-- The invariant of the free lists. -/
structure Ok (c : Config) (z : Zone) : Prop where
  system : IsBuddySystem c.maxOrder z.free
  nodup : ∀ o t, (z.freeList o t).Nodup
  type_eq : ∀ o t u p, p ∈ z.freeList o t → p ∈ z.freeList o u → t = u
  type_lt : ∀ o t p, p ∈ z.freeList o t → t < migrateIsolate
  page_eq : ∀ o t p, p ∈ z.freeList o t → z.page p = ⟨true, o⟩
  listed : ∀ p, c.InZone p → (z.page p).buddy = true → ((z.page p).priv, p) ∈ z.free
  inZone : ∀ x ∈ covered z.free, c.InZone x
  nrFree_eq : ∀ o, z.nrFree o = ∑ t ∈ range migrateTypes, ((z.freeList o t).length : ℤ)

private theorem sum_add_ite {o o' t : ℕ} {f : ℕ → ℤ} {k : ℤ} (ht : t < migrateTypes) :
    ∑ u ∈ range migrateTypes, (f u + if o' = o ∧ u = t then k else 0) =
      ∑ u ∈ range migrateTypes, f u + if o' = o then k else 0 := by
  rw [sum_add_distrib]
  by_cases ho : o' = o
  · simp [ho, ht]
  · simp [ho]

private theorem update_add {f : ℕ → ℤ} {o o' : ℕ} {k : ℤ} :
    Function.update f o (f o + k) o' = f o' + if o' = o then k else 0 := by
  rw [Function.update_apply]
  split_ifs with ho
  · rw [ho]
  · rw [add_zero]

variable {c : Config} {z z' : Zone} {o t p : ℕ}

namespace Ok

theorem mem_free (hp : p ∈ z.freeList o t) : (o, p) ∈ z.free := ⟨t, hp⟩

theorem order_lt (h : Ok c z) (hp : p ∈ z.freeList o t) : o < c.maxOrder :=
  h.system.order_lt o p (mem_free hp)

theorem aligned (h : Ok c z) (hp : p ∈ z.freeList o t) : 2 ^ o ∣ p :=
  h.system.aligned o p (mem_free hp)

/-- A page is on one list at most. -/
theorem eq_of_mem (h : Ok c z) {o' t' : ℕ} (hp : p ∈ z.freeList o t) (hp' : p ∈ z.freeList o' t') :
    o' = o ∧ t' = t := by
  have hpage := (h.page_eq o t p hp).symm.trans (h.page_eq o' t' p hp')
  obtain rfl : o = o' := (Page.mk.inj hpage).2
  exact ⟨rfl, h.type_eq o t' t p hp' hp⟩

theorem not_mem (h : Disjoint (blockOf o p) (covered z.free)) (o' t' : ℕ) :
    p ∉ z.freeList o' t' := fun hp =>
  Set.disjoint_left.1 h (self_mem_blockOf o p) ⟨o', p, mem_free hp, self_mem_blockOf o' p⟩

/-- A block is taken off its list. -/
theorem remove (h : Ok c z) (hp : p ∈ z.freeList o t) :
    Ok c (((z.listDel p).addNrFree o (-1)).rmvPageOrder p) ∧
      (((z.listDel p).addNrFree o (-1)).rmvPageOrder p).free = z.free \ {(o, p)} := by
  have hmem : ∀ o' t' q, q ∈ (z.freeList o' t').erase p ↔ q ≠ p ∧ q ∈ z.freeList o' t' :=
    fun o' t' q => (h.nodup o' t').mem_erase_iff
  have hfree : (((z.listDel p).addNrFree o (-1)).rmvPageOrder p).free = z.free \ {(o, p)} := by
    ext ⟨o', q⟩
    constructor
    · rintro ⟨t', hq⟩
      obtain ⟨hqp, hq⟩ := (hmem o' t' q).1 hq
      exact ⟨⟨t', hq⟩, fun heq => hqp (Prod.mk.inj heq).2⟩
    · rintro ⟨⟨t', hq⟩, hne⟩
      refine ⟨t', (hmem o' t' q).2 ⟨?_, hq⟩⟩
      rintro rfl
      obtain ⟨rfl, -⟩ := h.eq_of_mem hp hq
      exact hne rfl
  have hsub : (((z.listDel p).addNrFree o (-1)).rmvPageOrder p).free ⊆ z.free :=
    hfree ▸ Set.sdiff_subset
  refine ⟨⟨h.system.mono hsub, fun o' t' => (h.nodup o' t').erase p, fun o' t' u q hq hq' =>
    h.type_eq o' t' u q ((hmem o' t' q).1 hq).2 ((hmem o' u q).1 hq').2, fun o' t' q hq =>
    h.type_lt o' t' q ((hmem o' t' q).1 hq).2, fun o' t' q hq => ?_, fun q hq hb => ?_,
    fun x ⟨o', q, hq, hx⟩ => h.inZone x ⟨o', q, hsub hq, hx⟩, fun o' => ?_⟩, hfree⟩
  · obtain ⟨hqp, hq⟩ := (hmem o' t' q).1 hq
    exact (Function.update_of_ne hqp ..).trans (h.page_eq o' t' q hq)
  · change (Function.update z.page p ⟨false, 0⟩ q).buddy = true at hb
    have hqp : q ≠ p := by
      rintro rfl
      rw [Function.update_self] at hb
      cases hb
    change ((Function.update z.page p ⟨false, 0⟩ q).priv, q) ∈ _
    rw [Function.update_of_ne hqp] at hb ⊢
    rw [hfree]
    exact ⟨h.listed q hq hb, fun heq => hqp (Prod.mk.inj heq).2⟩
  · have hlen : ∀ t', (((z.freeList o' t').erase p).length : ℤ) =
        (z.freeList o' t').length + if o' = o ∧ t' = t then -1 else 0 := fun t' => by
      by_cases hq : p ∈ z.freeList o' t'
      · have hlen := List.length_erase_add_one hq
        obtain ⟨rfl, rfl⟩ := h.eq_of_mem hp hq
        rw [if_pos ⟨rfl, rfl⟩]
        omega
      · rw [List.erase_of_not_mem hq, if_neg, add_zero]
        rintro ⟨rfl, rfl⟩
        exact hq hp
    change Function.update z.nrFree o (z.nrFree o + -1) o' =
      ∑ t' ∈ range migrateTypes, (((z.freeList o' t').erase p).length : ℤ)
    rw [sum_congr rfl fun t' _ => hlen t', sum_add_ite ((h.type_lt o t p hp).trans (by decide)), ← h.nrFree_eq,
      update_add]

/-- A block joins a list, if its buddy is not free. -/
theorem add (h : Ok c z) (ho : o < c.maxOrder) (hp : 2 ^ o ∣ p) (ht : t < migrateIsolate)
    (hd : Disjoint (blockOf o p) (covered z.free)) (hz : ∀ x ∈ blockOf o p, c.InZone x)
    (hb : o + 1 < c.maxOrder → (o, buddyOf o p) ∉ z.free)
    (hlist : ∀ o' t', (z'.freeList o' t').Perm
      (if o' = o ∧ t' = t then p :: z.freeList o' t' else z.freeList o' t'))
    (hpage : z'.page = Function.update z.page p ⟨true, o⟩)
    (hnr : z'.nrFree = Function.update z.nrFree o (z.nrFree o + 1)) :
    Ok c z' ∧ z'.free = insert (o, p) z.free := by
  have hnot := not_mem hd
  have hmem : ∀ o' t' q, q ∈ z'.freeList o' t' ↔
      q ∈ z.freeList o' t' ∨ (o' = o ∧ t' = t) ∧ q = p := fun o' t' q => by
    rw [(hlist o' t').mem_iff]
    split_ifs with heq
    · rw [List.mem_cons, and_iff_right heq, or_comm]
    · rw [iff_self_or]
      exact fun hand => absurd hand.1 heq
  have hfree : z'.free = insert (o, p) z.free := by
    ext ⟨o', q⟩
    constructor
    · rintro ⟨t', hq⟩
      rcases (hmem o' t' q).1 hq with hq | ⟨⟨rfl, -⟩, hqp⟩
      · exact .inr ⟨t', hq⟩
      · exact .inl (Prod.ext rfl hqp)
    · rintro (heq | ⟨t', hq⟩)
      · cases heq
        exact ⟨t, (hmem o t p).2 (.inr ⟨⟨rfl, rfl⟩, rfl⟩)⟩
      · exact ⟨t', (hmem o' t' q).2 (.inl hq)⟩
  refine ⟨⟨hfree ▸ h.system.insert ho hp hd hb, fun o' t' => ?_, fun o' t' u q hq hq' => ?_,
    fun o' t' q hq => ?_, fun o' t' q hq => ?_, fun q hq hbq => ?_, fun x hx => ?_, fun o' => ?_⟩,
    hfree⟩
  · rw [(hlist o' t').nodup_iff]
    split_ifs
    · exact List.nodup_cons.2 ⟨hnot o' t', h.nodup o' t'⟩
    · exact h.nodup o' t'
  · rcases (hmem o' t' q).1 hq with hq | ⟨⟨-, rfl⟩, rfl⟩ <;>
      rcases (hmem o' u q).1 hq' with hq' | ⟨⟨-, rfl⟩, hqp⟩
    · exact h.type_eq o' t' u q hq hq'
    · exact absurd (hqp ▸ hq) (hnot o' t')
    · exact absurd hq' (hnot o' u)
    · rfl
  · rcases (hmem o' t' q).1 hq with hq | ⟨⟨-, rfl⟩, -⟩
    · exact h.type_lt o' t' q hq
    · exact ht
  · rw [hpage]
    rcases (hmem o' t' q).1 hq with hq | ⟨⟨rfl, -⟩, rfl⟩
    · have hqp : q ≠ p := by
        rintro rfl
        exact hnot o' t' hq
      rw [Function.update_of_ne hqp, h.page_eq o' t' q hq]
    · exact Function.update_self ..
  · rw [hpage] at hbq ⊢
    rw [hfree]
    by_cases hqp : q = p
    · rw [hqp, Function.update_self]
      exact .inl rfl
    · rw [Function.update_of_ne hqp] at hbq ⊢
      exact .inr (h.listed q hq hbq)
  · rw [hfree, covered_insert] at hx
    rcases hx with hx | hx
    · exact h.inZone x hx
    · exact hz x hx
  · have hlen : ∀ t', ((z'.freeList o' t').length : ℤ) =
        (z.freeList o' t').length + if o' = o ∧ t' = t then 1 else 0 := fun t' => by
      rw [(hlist o' t').length_eq]
      split_ifs
      · rw [List.length_cons]
        exact Int.natCast_succ _
      · rw [add_zero]
    rw [sum_congr rfl fun t' _ => hlen t', sum_add_ite (ht.trans (by decide)), ← h.nrFree_eq, hnr, update_add]

end Ok

/-! ## Merging -/

/-- The index of a page among those of its greatest block tells its buddy. -/
theorem buddy_of_pageIdx (ho : o < c.maxOrder) {pageIdx : ℕ} (hidx : pageIdx = p % 2 ^ c.maxOrder) :
    p + findBuddyIndex pageIdx o - pageIdx = buddyOf o p ∧
      p + (findBuddyIndex pageIdx o &&& pageIdx) - pageIdx = parentOf o p ∧
      findBuddyIndex pageIdx o &&& pageIdx = parentOf o p % 2 ^ c.maxOrder := by
  have hone : 2 ^ o / 2 ^ c.maxOrder = 0 := Nat.div_eq_of_lt (Nat.pow_lt_pow_right Nat.one_lt_two ho)
  have hmod : 2 ^ o % 2 ^ c.maxOrder = 2 ^ o :=
    Nat.mod_eq_of_lt (Nat.pow_lt_pow_right Nat.one_lt_two ho)
  have hbuddy : buddyOf o p / 2 ^ c.maxOrder = p / 2 ^ c.maxOrder ∧
      buddyOf o p % 2 ^ c.maxOrder = findBuddyIndex pageIdx o := by
    rw [buddyOf, Nat.xor_div_two_pow, Nat.xor_mod_two_pow, hone, hmod, Nat.xor_zero, findBuddyIndex,
      Nat.one_shiftLeft, hidx]
    exact ⟨rfl, rfl⟩
  have hparent : parentOf o p / 2 ^ c.maxOrder = p / 2 ^ c.maxOrder ∧
      parentOf o p % 2 ^ c.maxOrder = findBuddyIndex pageIdx o &&& pageIdx := by
    rw [parentOf, Nat.and_div_two_pow, Nat.and_mod_two_pow, hbuddy.1, hbuddy.2, Nat.and_self, hidx]
    exact ⟨rfl, rfl⟩
  have hp := Nat.div_add_mod p (2 ^ c.maxOrder)
  have hb := Nat.div_add_mod (buddyOf o p) (2 ^ c.maxOrder)
  have hq := Nat.div_add_mod (parentOf o p) (2 ^ c.maxOrder)
  rw [hbuddy.1, hbuddy.2] at hb
  rw [hparent.1, hparent.2] at hq
  rw [← hidx] at hp
  exact ⟨by omega, by omega, hparent.2.symm⟩

/-- A page is the buddy of a page of the zone if it is the first one of a free block of the order. -/
theorem Ok.pageIsBuddy_iff (h : Ok c z) (hp : c.InZone p) {b : ℕ} :
    pageIsBuddy c z p b o = true ↔ (o, b) ∈ z.free := by
  rw [pageIsBuddy, Bool.and_eq_true, Bool.and_eq_true, Bool.and_eq_true, beq_iff_eq, beq_iff_eq, hp.2]
  constructor
  · rintro ⟨⟨⟨hvalid, hzone⟩, hb⟩, rfl⟩
    exact h.listed b ⟨hvalid, hzone.symm⟩ hb
  · rintro ⟨t, hb⟩
    obtain ⟨hvalid, hzone⟩ := h.inZone b ⟨o, b, ⟨t, hb⟩, self_mem_blockOf o b⟩
    rw [h.page_eq o t b hb]
    exact ⟨⟨⟨hvalid, hzone.symm⟩, rfl⟩, rfl⟩

/-- The block of order `o` at `p` is being freed, and has been merged with free blocks of lower orders:
    the block they make up is not one of the free ones. -/
structure Merging (c : Config) (z : Zone) (o p : ℕ) (s : Merge) : Prop where
  ok : Ok c s.zone
  order_lt : s.order < c.maxOrder
  aligned : 2 ^ s.order ∣ s.page
  pageIdx_eq : s.pageIdx = s.page % 2 ^ c.maxOrder
  disjoint : Disjoint (blockOf s.order s.page) (covered s.zone.free)
  inZone : ∀ x ∈ blockOf s.order s.page, c.InZone x
  covered_eq : covered s.zone.free ∪ blockOf s.order s.page = covered z.free ∪ blockOf o p
  subset : blockOf o p ⊆ blockOf s.order s.page
  freeList_eq : ∀ k t, s.order ≤ k → s.zone.freeList k t = z.freeList k t
  page_eq : ∀ x, x ∉ covered z.free ∪ blockOf o p → s.zone.page x = z.page x

/-- The loop has ended: the buddy is not free, unless the block has the greatest order. -/
structure Merged (c : Config) (z : Zone) (o p : ℕ) (s : Merge) : Prop extends Merging c z o p s where
  not_free : s.order + 1 < c.maxOrder → (s.order, buddyOf s.order s.page) ∉ s.zone.free
  buddyIdx_eq : s.order + 1 < c.maxOrder → s.buddyIdx = findBuddyIndex s.pageIdx s.order
  buddy_eq : s.order + 1 < c.maxOrder → s.buddy = buddyOf s.order s.page

namespace Merging

variable {s : Merge}

theorem page_inZone (h : Merging c z o p s) : c.InZone s.page := h.inZone _ (self_mem_blockOf _ _)

/-- The block and its buddy become their parent. -/
theorem merge (h : Merging c z o p s) (hlt : s.order + 1 < c.maxOrder)
    (hb : (s.order, buddyOf s.order s.page) ∈ s.zone.free) (buddyIdx buddy : ℕ) :
    Merging c z o p
      { zone := ((s.zone.listDel (buddyOf s.order s.page)).addNrFree s.order (-1)).rmvPageOrder
          (buddyOf s.order s.page)
        page := parentOf s.order s.page
        pageIdx := parentOf s.order s.page % 2 ^ c.maxOrder
        order := s.order + 1
        buddyIdx
        buddy } := by
  obtain ⟨t, ht⟩ := hb
  obtain ⟨hok, hfree⟩ := h.ok.remove ht
  obtain ⟨hd, hcov⟩ := h.ok.system.merge h.aligned h.disjoint ⟨t, ht⟩
  have hparent := blockOf_parentOf h.aligned
  refine ⟨hok, hlt, dvd_parentOf h.aligned, rfl, hfree.symm ▸ hd, fun x hx => ?_, ?_, ?_,
    fun k u hk => ?_, fun x hx => ?_⟩
  · change x ∈ blockOf (s.order + 1) (parentOf s.order s.page) at hx
    rw [hparent] at hx
    rcases hx with hx | hx
    · exact h.inZone x hx
    · exact h.ok.inZone x ⟨_, _, ⟨t, ht⟩, hx⟩
  · change covered (Zone.free _) ∪ blockOf (s.order + 1) (parentOf s.order s.page) = _
    rw [hfree, hcov, h.covered_eq]
  · change _ ⊆ blockOf (s.order + 1) (parentOf s.order s.page)
    rw [hparent]
    exact h.subset.trans Set.subset_union_left
  · -- The buddy is on a list of a lower order.
    have hk : s.order + 1 ≤ k := hk
    change (s.zone.freeList k u).erase _ = _
    rw [List.erase_of_not_mem, h.freeList_eq k u (by omega)]
    intro hmem
    have := (h.ok.eq_of_mem ht hmem).1
    omega
  · have hne : x ≠ buddyOf s.order s.page := by
      rintro rfl
      exact hx (h.covered_eq ▸ .inl ⟨_, _, ⟨t, ht⟩, self_mem_blockOf _ _⟩)
    exact (Function.update_of_ne hne ..).trans (h.page_eq x hx)

end Merging

theorem mergeLoop_pageblockFlags (n : ℕ) (s : Merge) :
    (mergeLoop c n s).zone.pageblockFlags = s.zone.pageblockFlags := by
  induction n generalizing s with
  | zero => rfl
  | succ n ih =>
    rw [mergeLoop]
    dsimp only
    split_ifs
    · exact ih _
    · rfl
    · rfl

theorem freeOnePage_pageblockFlags :
    (freeOnePage c z p o t).pageblockFlags = z.pageblockFlags := by
  rw [← mergeLoop_pageblockFlags c.maxOrder ⟨z, p, p &&& (1 <<< c.maxOrder - 1), o, 0, 0⟩, freeOnePage]
  dsimp only
  split_ifs <;> rfl

theorem mergeLoop_spec {n : ℕ} {s : Merge} (h : Merging c z o p s)
    (hn : c.maxOrder ≤ s.order + 1 + n) : Merged c z o p (mergeLoop c n s) := by
  induction n generalizing s with
  | zero =>
    have hnot : ¬s.order + 1 < c.maxOrder := by omega
    exact ⟨h, fun hlt => absurd hlt hnot, fun hlt => absurd hlt hnot, fun hlt => absurd hlt hnot⟩
  | succ n ih =>
    obtain ⟨hbuddy, hparent, hidx⟩ := buddy_of_pageIdx h.order_lt h.pageIdx_eq
    rw [mergeLoop]
    by_cases hlt : s.order < c.maxOrder - 1
    · rw [if_pos hlt]
      dsimp only
      by_cases hb : pageIsBuddy c s.zone s.page
          (s.page + findBuddyIndex s.pageIdx s.order - s.pageIdx) s.order = true
      · rw [if_pos hb]
        rw [hbuddy, h.ok.pageIsBuddy_iff h.page_inZone] at hb
        rw [hbuddy, hparent, hidx]
        refine ih (h.merge (by omega) hb _ _) ?_
        change c.maxOrder ≤ s.order + 1 + 1 + n
        omega
      · rw [if_neg hb]
        rw [hbuddy, h.ok.pageIsBuddy_iff h.page_inZone] at hb
        exact ⟨⟨h.ok, h.order_lt, h.aligned, h.pageIdx_eq, h.disjoint, h.inZone, h.covered_eq,
          h.subset, h.freeList_eq, h.page_eq⟩, fun _ => hb, fun _ => rfl, fun _ => hbuddy⟩
    · have hnot : ¬s.order + 1 < c.maxOrder := by omega
      rw [if_neg hlt]
      exact ⟨h, fun hlt => absurd hlt hnot, fun hlt => absurd hlt hnot, fun hlt => absurd hlt hnot⟩

/-- The block that is freed, and the loop over it. -/
theorem Ok.merged (h : Ok c z) (ho : o < c.maxOrder) (hp : 2 ^ o ∣ p)
    (hd : Disjoint (blockOf o p) (covered z.free)) (hz : ∀ x ∈ blockOf o p, c.InZone x) :
    Merged c z o p
      (mergeLoop c c.maxOrder ⟨z, p, p &&& (1 <<< c.maxOrder - 1), o, 0, 0⟩) := by
  refine mergeLoop_spec ⟨h, ho, hp, ?_, hd, hz, rfl, subset_rfl, fun _ _ _ => rfl, fun _ _ => rfl⟩
    (Nat.le_add_left _ _)
  change p &&& (1 <<< c.maxOrder - 1) = p % 2 ^ c.maxOrder
  rw [Nat.one_shiftLeft, Nat.and_two_pow_sub_one_eq_mod]

/-- A block that is freed is added to the free pages. -/
theorem freeOnePage_spec (h : Ok c z) (ho : o < c.maxOrder) (hp : 2 ^ o ∣ p) (ht : t < migrateIsolate)
    (hd : Disjoint (blockOf o p) (covered z.free)) (hz : ∀ x ∈ blockOf o p, c.InZone x) :
    Ok c (freeOnePage c z p o t) ∧
      covered (freeOnePage c z p o t).free = covered z.free ∪ blockOf o p ∧
      ∀ x, x ∉ covered z.free ∪ blockOf o p → (freeOnePage c z p o t).page x = z.page x := by
  have hm := h.merged ho hp hd hz
  rw [freeOnePage]
  generalize mergeLoop c c.maxOrder _ = s at hm
  -- The block is added to a list, first or last.
  have hadd : ∀ z', (∀ o' t', (z'.freeList o' t').Perm (if o' = s.order ∧ t' = t then
      s.page :: s.zone.freeList o' t' else s.zone.freeList o' t')) →
      z'.page = Function.update s.zone.page s.page ⟨true, s.order⟩ →
      z'.nrFree = Function.update s.zone.nrFree s.order (s.zone.nrFree s.order + 1) →
      Ok c z' ∧ covered z'.free = covered z.free ∪ blockOf o p ∧
        ∀ x, x ∉ covered z.free ∪ blockOf o p → z'.page x = z.page x := fun z' hlist hpage hnr => by
    obtain ⟨hok, hfree⟩ := hm.ok.add hm.order_lt hm.aligned ht hm.disjoint hm.inZone hm.not_free
      hlist hpage hnr
    refine ⟨hok, by rw [hfree, covered_insert, hm.covered_eq], fun x hx => ?_⟩
    have hne : x ≠ s.page := by
      rintro rfl
      exact hx (hm.covered_eq ▸ .inr (self_mem_blockOf _ _))
    rw [hpage, Function.update_of_ne hne, hm.page_eq x hx]
  split_ifs
  · refine hadd _ (fun o' t' => ?_) rfl rfl
    change (if o' = s.order ∧ t' = t then s.zone.freeList o' t' ++ [s.page] else
      s.zone.freeList o' t').Perm _
    split_ifs
    · exact List.perm_append_singleton _ _
    · exact .refl _
  · exact hadd _ (fun o' t' => .refl _) rfl rfl

/-! ## Splitting -/

theorem expand_pageblockFlags {low high : ℕ} :
    (expand p low t high z).pageblockFlags = z.pageblockFlags := by
  induction high generalizing z with
  | zero => rfl
  | succ high ih =>
    rw [expand]
    split_ifs
    · exact ih
    · rfl

/-- The upper halves of a block go back to the lists, down to the block allocated. -/
theorem expand_spec {low high : ℕ} (h : Ok c z) (hhigh : high < c.maxOrder) (hle : low ≤ high)
    (hp : 2 ^ high ∣ p) (ht : t < migrateIsolate) (hd : Disjoint (blockOf high p) (covered z.free))
    (hz : ∀ x ∈ blockOf high p, c.InZone x) :
    Ok c (expand p low t high z) ∧ 2 ^ low ∣ p ∧
      Disjoint (blockOf low p) (covered (expand p low t high z).free) ∧
      covered (expand p low t high z).free ∪ blockOf low p = covered z.free ∪ blockOf high p ∧
      ∀ x, x ∉ blockOf high p → (expand p low t high z).page x = z.page x := by
  induction high generalizing z with
  | zero =>
    obtain rfl : low = 0 := Nat.le_zero.1 hle
    exact ⟨h, hp, hd, rfl, fun _ _ => rfl⟩
  | succ high ih =>
    rw [expand]
    split_ifs with hlt
    · have hhigh' := Nat.lt_of_succ_lt hhigh
      obtain ⟨hsys, hdlow, hcov⟩ := h.system.split hhigh' hp hd
      rw [Nat.one_shiftLeft]
      have hdvd : 2 ^ high ∣ p := (pow_dvd_pow 2 high.le_succ).trans hp
      have hsub : ∀ x ∈ blockOf high (p + 2 ^ high), x ∈ blockOf (high + 1) p := fun x hx => by
        rw [blockOf_succ]
        exact .inr hx
      have hdup : Disjoint (blockOf high (p + 2 ^ high)) (covered z.free) := hd.mono_left hsub
      have hadd : ∀ z', z' = ((z.listAdd high t (p + 2 ^ high)).addNrFree high 1).setPageOrder
          (p + 2 ^ high) high → Ok c z' ∧ z'.free = insert (high, p + 2 ^ high) z.free := by
        rintro z' rfl
        exact h.add hhigh' (Nat.dvd_add hdvd dvd_rfl) ht hdup (fun x hx => hz x (hsub x hx))
          (fun hM hb => hsys.not_buddies _ _ (.inl rfl) hM (.inr hb)) (fun o' t' => .refl _) rfl rfl
      obtain ⟨hok, hfree⟩ := hadd _ rfl
      rw [← hfree] at hdlow hcov
      have hsub' : ∀ x ∈ blockOf high p, x ∈ blockOf (high + 1) p := fun x hx => by
        rw [blockOf_succ]
        exact .inl hx
      obtain ⟨hok', hlow, hd', hcov', hpage⟩ := ih hok hhigh' (Nat.le_of_lt_succ hlt) hdvd hdlow
        fun x hx => hz x (hsub' x hx)
      refine ⟨hok', hlow, hd', hcov'.trans hcov, fun x hx => (hpage x fun hx' => hx (hsub' x hx')).trans
        (Function.update_of_ne ?_ ..)⟩
      rintro rfl
      exact hx (hsub _ (self_mem_blockOf _ _))
    · obtain rfl : low = high + 1 := by omega
      exact ⟨h, hp, hd, rfl, fun _ _ => rfl⟩

/-! ## Counting -/

/-- The number of free blocks of an order. -/
noncomputable def Zone.blocks (z : Zone) (o : ℕ) : ℕ := {p | (o, p) ∈ z.free}.ncard

namespace Ok

theorem finite_free (h : Ok c z) : z.free.Finite := by
  have hlist : ∀ o t, {b : ℕ × ℕ | b.1 = o ∧ b.2 ∈ z.freeList o t}.Finite := fun o t =>
    ((z.freeList o t).finite_toSet.image (Prod.mk o)).subset fun b hb =>
      ⟨b.2, hb.2, Prod.ext hb.1.symm rfl⟩
  have horder : ∀ o, (⋃ t ∈ Set.Iio migrateTypes,
      {b : ℕ × ℕ | b.1 = o ∧ b.2 ∈ z.freeList o t}).Finite := fun o =>
    (Set.finite_Iio migrateTypes).biUnion fun t _ => hlist o t
  refine ((Set.finite_Iio c.maxOrder).biUnion fun o _ => horder o).subset ?_
  rintro b ⟨t, hb⟩
  have ht : t < migrateTypes := (h.type_lt b.1 t b.2 hb).trans (by decide)
  exact Set.mem_biUnion (h.order_lt hb) (Set.mem_biUnion ht ⟨rfl, hb⟩)

theorem finite_blocks (h : Ok c z) (o : ℕ) : {p | (o, p) ∈ z.free}.Finite :=
  h.finite_free.preimage (Prod.mk_right_injective o).injOn

theorem nrFree_eq_blocks (h : Ok c z) (o : ℕ) : z.nrFree o = z.blocks o := by
  have hset : {p | (o, p) ∈ z.free} =
      ((range migrateTypes).biUnion fun t => (z.freeList o t).toFinset : Finset ℕ) := by
    ext p
    constructor
    · rintro ⟨t, hp⟩
      have ht : t < migrateTypes := (h.type_lt o t p hp).trans (by decide)
      exact mem_biUnion.2 ⟨t, mem_range.2 ht, List.mem_toFinset.2 hp⟩
    · intro hp
      obtain ⟨t, -, hp⟩ := mem_biUnion.1 hp
      exact ⟨t, List.mem_toFinset.1 hp⟩
  rw [Zone.blocks, hset, Set.ncard_coe_finset, card_biUnion fun t _ u _ hne => disjoint_left.2 fun p hp hp' =>
    hne (h.type_eq o t u p (List.mem_toFinset.1 hp) (List.mem_toFinset.1 hp')), h.nrFree_eq,
    Nat.cast_sum]
  exact sum_congr rfl fun t _ => by rw [List.toFinset_card_of_nodup (h.nodup o t)]

/-- A sum over the free blocks, by their orders. -/
theorem sum_free (h : Ok c z) (f : ℕ → ℕ) :
    ∑ b ∈ h.finite_free.toFinset, f b.1 = ∑ k ∈ range c.maxOrder, z.blocks k * f k := by
  have hmaps : ∀ b ∈ h.finite_free.toFinset, b.1 ∈ range c.maxOrder := fun b hb =>
    mem_range.2 (h.system.order_lt b.1 b.2 (h.finite_free.mem_toFinset.1 hb))
  rw [← sum_fiberwise_of_maps_to hmaps]
  refine sum_congr rfl fun k _ => ?_
  have hfiber : (h.finite_free.toFinset.filter fun b => b.1 = k : Set (ℕ × ℕ)) =
      Prod.mk k '' {p | (k, p) ∈ z.free} := by
    ext b
    simp only [coe_filter, Set.Finite.mem_toFinset, Set.mem_ofPred_eq, Set.mem_image]
    constructor
    · rintro ⟨hb, rfl⟩
      exact ⟨b.2, hb, rfl⟩
    · rintro ⟨p, hp, rfl⟩
      exact ⟨hp, rfl⟩
  have hcard : (h.finite_free.toFinset.filter fun b => b.1 = k).card = z.blocks k := by
    rw [← Set.ncard_coe_finset, hfiber, Set.ncard_image_of_injective _ (Prod.mk_right_injective k)]
    rfl
  have hconst : ∀ b ∈ h.finite_free.toFinset.filter fun b => b.1 = k, f b.1 = f k := fun b hb =>
    congrArg f (mem_filter.1 hb).2
  rw [sum_congr rfl hconst, sum_const, hcard, nsmul_eq_mul, Nat.cast_id]

/-- The counters of the orders tell how many pages are free. -/
theorem ncard_covered (h : Ok c z) : (covered z.free).Finite ∧
    ((covered z.free).ncard : ℤ) = ∑ o ∈ range c.maxOrder, z.nrFree o * 2 ^ o := by
  obtain ⟨hfin, hcard⟩ := h.system.finite h.finite_free
  refine ⟨hfin, ?_⟩
  rw [hcard, h.sum_free fun k => 2 ^ k, Nat.cast_sum]
  refine sum_congr rfl fun k _ => ?_
  rw [h.nrFree_eq_blocks]
  push_cast
  rfl

end Ok

end Mcpq.Kernel.PageAlloc
