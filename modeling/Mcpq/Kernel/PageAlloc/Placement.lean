import Mcpq.Kernel.PageAlloc.Run

/-!
# The place of a block on its list

A block that is freed is added to the end of its list if it is likely to be merged again soon, so that it is
allocated late: if the buddy of its parent is free, too. The code looks for that buddy from the block
instead of from its parent, and finds it only if the block is the lower half: an upper half is always added
to the front (`freeOnePage_tail`).
-/

namespace Mcpq.Kernel.PageAlloc

variable {c : Config} {F : Set ℕ} {z : Zone} {H : List (ℕ × ℕ)} {o p t k q : ℕ}

theorem pageIsBuddy_congr {z' : Zone} {b : ℕ} (h : z'.page b = z.page b) :
    pageIsBuddy c z' p b o = pageIsBuddy c z p b o := by
  rw [pageIsBuddy, pageIsBuddy, h]

/-- The block that the code takes for the buddy of the parent. -/
theorem higherBuddy_eq {s : Merge} (hlt : s.order + 1 < c.maxOrder) (hp : 2 ^ s.order ∣ s.page) :
    s.page + findBuddyIndex (parentOf s.order s.page % 2 ^ c.maxOrder) (s.order + 1) -
        parentOf s.order s.page % 2 ^ c.maxOrder =
      buddyOf (s.order + 1) (parentOf s.order s.page) + (s.page - parentOf s.order s.page) := by
  obtain ⟨hbuddy, -, -⟩ := buddy_of_pageIdx hlt rfl (p := parentOf s.order s.page)
  have hmod := Nat.mod_le (parentOf s.order s.page) (2 ^ c.maxOrder)
  have hle : parentOf s.order s.page ≤ s.page := by
    rcases buddy_cases hp with ⟨-, -, hpar⟩ | ⟨r, -, hr, -, hpar⟩ <;> omega
  omega

/-- The buddy of the parent is looked for, and found if the block is the lower half. -/
theorem Merged.coalescesSoon_iff {s : Merge} (hm : Merged c z o p s)
    (hother : ∀ x, ¬c.InZone x → (z.page x).buddy = true → 2 ^ (z.page x).priv ∣ x)
    (hzone : ∀ x ∈ covered z.free ∪ blockOf o p, c.InZone x) :
    coalescesSoon c { s with zone := s.zone.setPageOrder s.page s.order } = true ↔
      s.order + 2 < c.maxOrder ∧ c.pfnValidWithin (buddyOf s.order s.page) = true ∧
        2 ^ (s.order + 1) ∣ s.page ∧ (s.order + 1, buddyOf (s.order + 1) s.page) ∈ z.free := by
  have hand : (decide (s.order < c.maxOrder - 2) && c.pfnValidWithin s.buddy) = true ↔
      s.order + 2 < c.maxOrder ∧ c.pfnValidWithin (buddyOf s.order s.page) = true := by
    rw [Bool.and_eq_true, decide_eq_true_iff, Nat.lt_sub_iff_add_lt]
    exact and_congr_right fun hlt => by rw [hm.buddy_eq (Nat.lt_of_succ_lt hlt)]
  rw [coalescesSoon, ← and_assoc, ← hand]
  split_ifs with hcond
  swap
  · exact ⟨nofun, fun h => absurd h.1 hcond⟩
  have hlt := Nat.lt_of_succ_lt (hand.1 hcond).1
  obtain ⟨-, hparent, hidx⟩ := buddy_of_pageIdx hm.order_lt hm.pageIdx_eq
  rw [and_iff_right hcond]
  dsimp only
  rw [hm.buddyIdx_eq hlt, hparent, hidx, higherBuddy_eq hlt hm.aligned]
  rcases buddy_cases hm.aligned with ⟨hdvd, -, hpar⟩ | ⟨r, hr, hpage, -, hpar⟩
  · -- The lower half.
    rw [hpar, Nat.sub_self, Nat.add_zero, and_iff_right hdvd,
      pageIsBuddy_congr (Function.update_of_ne (buddyOf_ne _ _) ..),
      hm.ok.pageIsBuddy_iff hm.page_inZone]
    exact exists_congr fun t => by rw [hm.freeList_eq _ t (Nat.le_succ _)]
  · -- The upper half: the page that is looked at is no first page of a block of the order.
    have hnot : ∀ b, 2 ^ (s.order + 1) ∣ b → ¬2 ^ (s.order + 1) ∣ b + 2 ^ s.order := by
      intro b hb hdvd
      have hle := Nat.le_of_dvd (Nat.two_pow_pos _) ((Nat.dvd_add_right hb).1 hdvd)
      exact absurd hle (not_le.2 (Nat.pow_lt_pow_right Nat.one_lt_two s.order.lt_succ_self))
    refine ⟨fun hbuddy => ?_, fun hand => absurd hand.1 (hpage ▸ hnot r hr)⟩
    have hb : 2 ^ (s.order + 1) ∣ buddyOf (s.order + 1) r := dvd_buddyOf hr
    rw [hpar, hpage, Nat.add_sub_cancel_left] at hbuddy
    have hne : buddyOf (s.order + 1) r + 2 ^ s.order ≠ r + 2 ^ s.order := fun heq =>
      buddyOf_ne _ _ (Nat.add_right_cancel heq)
    generalize hx : buddyOf (s.order + 1) r + 2 ^ s.order = x at hbuddy hne
    rw [pageIsBuddy_congr (z := s.zone) (Function.update_of_ne hne ..), pageIsBuddy,
      Bool.and_eq_true, Bool.and_eq_true, beq_iff_eq] at hbuddy
    obtain ⟨⟨-, hmark⟩, hpriv⟩ := hbuddy
    refine absurd ?_ (hx ▸ hnot _ hb)
    rw [← hpriv]
    by_cases hin : c.InZone x
    · exact hm.ok.system.aligned _ _ (hm.ok.listed x hin hmark)
    · have heq := hm.page_eq x fun hmem => hin (hzone x hmem)
      rw [heq] at hmark ⊢
      exact hother x hin hmark

open Classical in
/-- Where the block that a held block is merged into is added to the list: to the end, if it is the lower
    half of its parent and the buddy of its parent is free, and otherwise to the front. -/
theorem freeOnePage_tail (h : Custody c F z ((o, p) :: H)) (ht : t < migrateIsolate)
    (hother : ∀ x, ¬c.InZone x → (z.page x).buddy = true → 2 ^ (z.page x).priv ∣ x)
    (hq : (k, q) ∈ (freeOnePage c z p o t).free) (hpq : p ∈ blockOf k q) :
    (freeOnePage c z p o t).freeList k t =
      if k + 2 < c.maxOrder ∧ c.pfnValidWithin (buddyOf k q) = true ∧ 2 ^ (k + 1) ∣ q ∧
          (k + 1, buddyOf (k + 1) q) ∈ z.free
        then z.freeList k t ++ [q] else q :: z.freeList k t := by
  obtain ⟨ho, hp, -⟩ := IsPacking.cons_iff.1 h.packing
  have hm := h.ok.merged ho hp h.disjoint_block h.inZone_block
  have hok := (h.free ht).ok
  have hzone : ∀ x ∈ covered z.free ∪ blockOf o p, c.InZone x := by
    rintro x (hx | hx)
    · exact h.ok.inZone x hx
    · exact h.inZone_block x hx
  have hiff := hm.coalescesSoon_iff hother hzone
  rw [freeOnePage] at hq hok ⊢
  generalize mergeLoop c c.maxOrder _ = s at hm hiff hq hok ⊢
  dsimp only at hq hok ⊢
  -- The block is the one that has been merged.
  have hmem : ∀ z' : Zone, s.page ∈ z'.freeList s.order t → (s.order, s.page) ∈ z'.free :=
    fun _ hmem => ⟨t, hmem⟩
  obtain ⟨rfl, rfl⟩ : k = s.order ∧ q = s.page := by
    refine Prod.mk.inj (hok.system.eq_of_mem hq (hmem _ ?_) hpq
      (hm.subset (self_mem_blockOf o p)))
    split_ifs
    · change _ ∈ (if s.order = s.order ∧ t = t then s.zone.freeList s.order t ++ [s.page] else _)
      rw [if_pos ⟨rfl, rfl⟩]
      exact List.mem_append_right _ List.mem_cons_self
    · change _ ∈ (if s.order = s.order ∧ t = t then s.page :: s.zone.freeList s.order t else _)
      rw [if_pos ⟨rfl, rfl⟩]
      exact List.mem_cons_self
  rw [← hm.freeList_eq s.order t le_rfl]
  by_cases hsoon : coalescesSoon c { s with zone := s.zone.setPageOrder s.page s.order } = true
  · rw [if_pos hsoon, if_pos (hiff.1 hsoon)]
    exact if_pos ⟨rfl, rfl⟩
  · rw [if_neg hsoon, if_neg (mt hiff.2 hsoon)]
    exact if_pos ⟨rfl, rfl⟩

/-- Of the pages of `smallZone`, those of the block `(1, 2)` and page 5 are free. -/
def tailZone : Zone :=
  freeOnePage smallZone (freeOnePage smallZone smallFresh.zone 2 1 migrateMovable) 5 0 migrateMovable

/-- The block goes behind the one on its list. -/
theorem freeOnePage_tail_small : tailZone.freeList 0 migrateMovable = [5] ∧
    (freeOnePage smallZone tailZone 0 0 migrateMovable).freeList 0 migrateMovable = [5] ++ [0] := by
  have hcust : Custody smallZone (pagesOf smallBoot) tailZone
      [(0, 0), (0, 1), (0, 4), (0, 6), (0, 7)] := by
    have hsplit := ((smallFresh_fresh.inv smallBoot_boot).custody.free (t := migrateMovable)
      (by decide)).split
    exact (hsplit.perm (by decide : List.Perm _ [(0, 5), (0, 0), (0, 1), (0, 4), (0, 6), (0, 7)])).free
      (by decide)
  have hother : ∀ x, ¬smallZone.InZone x → (tailZone.page x).buddy = true →
      2 ^ (tailZone.page x).priv ∣ x := fun x hx hbuddy => by
    change (Function.update (Function.update (fun _ => ({} : Page)) 2 ⟨true, 1⟩) 5 ⟨true, 0⟩ x).buddy =
      true at hbuddy
    rw [Function.update_apply, Function.update_apply] at hbuddy
    split_ifs at hbuddy with hfive htwo
    · subst hfive
      exact absurd ⟨rfl, rfl⟩ hx
    · subst htwo
      exact absurd ⟨rfl, rfl⟩ hx
  have hlist : tailZone.freeList 0 migrateMovable = [5] := by decide
  have hfree : (1, 2) ∈ tailZone.free := ⟨migrateMovable, by decide⟩
  refine ⟨hlist, ?_⟩
  rw [freeOnePage_tail (k := 0) (q := 0) hcust (by decide) hother ⟨migrateMovable, by decide⟩
    (self_mem_blockOf 0 0), if_pos ⟨by decide, by decide, by decide, hfree⟩, hlist]

end Mcpq.Kernel.PageAlloc
