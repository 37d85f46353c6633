import Mathlib.Data.Nat.Bitwise
import Mathlib.Data.Set.Pairwise.Basic
import Mathlib.Data.Set.Insert
import Mathlib.Order.Interval.Set.Basic
import Mathlib.Data.Set.Card
import Mathlib.Order.Interval.Finset.Nat
import Mathlib.Algebra.BigOperators.Group.List.Basic
import Mathlib.Algebra.BigOperators.Group.Finset.Basic
import Mathlib.Order.CompletePartialOrder

/-!
# Buddy systems

Memory is a set of pages, numbered from `0` on, and its free pages are kept in blocks: the block of order
`o` at `p` has `2 ^ o` pages from `p` on, where `p` is a multiple of `2 ^ o`. Two such blocks are disjoint,
or one of them is part of the other. The *buddy* of a block is the block of the same order that it makes up
a block of the next order with, its *parent*.

* `IsBuddySystem M B`: the blocks `B`, of orders below `M`, are disjoint, and no two of them are buddies,
  unless they have the greatest order;
* `IsBuddySystem.eq_maximal`: they are then the greatest blocks of the pages they cover (`maximalBlocks`),
  so that the free pages alone tell which blocks are free;
* `IsBuddySystem.exists_of_subset`: any block of free pages is part of a free one, so that the pages of
  lesser blocks are in no such block (`IsBuddySystem.unusable_eq`);
* `IsBuddySystem.insert`, `merge` and `split`: how a block that is freed joins the system, in the place of
  its buddy, and how a block that is allocated leaves its upper half to it;
* `IsPacking M H`: the blocks of the list `H`, which may be buddies, are disjoint. They have as many pages
  as their `weight` (`IsPacking.finite`).
-/

namespace Mcpq

/-! ## Blocks -/

/-- The pages of the block of order `o` at `p`. -/
def blockOf (o p : ℕ) : Set ℕ := Set.Ico p (p + 2 ^ o)

/-- The other half of the block of the next order. -/
def buddyOf (o p : ℕ) : ℕ := p ^^^ 2 ^ o

/-- The block of the next order. -/
def parentOf (o p : ℕ) : ℕ := buddyOf o p &&& p

section blocks

variable {o k p q x : ℕ}

theorem self_mem_blockOf (o p : ℕ) : p ∈ blockOf o p :=
  ⟨le_rfl, Nat.lt_add_of_pos_right (Nat.two_pow_pos o)⟩

theorem blockOf_zero (p : ℕ) : blockOf 0 p = {p} := by
  ext x
  rw [blockOf, Set.mem_Ico, Set.mem_singleton_iff, pow_zero]
  omega

/-- The two halves of a block. -/
theorem blockOf_succ (o p : ℕ) : blockOf (o + 1) p = blockOf o p ∪ blockOf o (p + 2 ^ o) := by
  ext x
  have := Nat.two_pow_pos o
  simp only [blockOf, Set.mem_union, Set.mem_Ico, pow_succ]
  omega

/-- A block and its upper buddy are disjoint. -/
theorem disjoint_halves (o p : ℕ) : Disjoint (blockOf o p) (blockOf o (p + 2 ^ o)) :=
  Set.disjoint_left.2 fun _ hx hx' => absurd hx'.1 (not_le.2 hx.2)

/-- The pages of an aligned block share their upper bits. -/
theorem mem_blockOf (h : 2 ^ o ∣ p) : x ∈ blockOf o p ↔ x / 2 ^ o = p / 2 ^ o := by
  obtain ⟨i, rfl⟩ := h
  have hpos := Nat.two_pow_pos o
  rw [Nat.mul_div_cancel_left _ hpos, Nat.div_eq_iff hpos, blockOf, Set.mem_Ico]
  rw [Nat.mul_comm (2 ^ o) i]
  omega

/-- Aligned blocks that overlap are the same. -/
theorem eq_of_mem_blockOf (hp : 2 ^ o ∣ p) (hq : 2 ^ o ∣ q) (h : q ∈ blockOf o p) : q = p := by
  rw [mem_blockOf hp] at h
  rw [← Nat.div_mul_cancel hp, ← Nat.div_mul_cancel hq, h]

/-- A block is part of another one of no smaller order, or disjoint from it. -/
theorem blockOf_subset_or_disjoint (hp : 2 ^ o ∣ p) (hq : 2 ^ k ∣ q) (h : k ≤ o) :
    blockOf k q ⊆ blockOf o p ∨ Disjoint (blockOf k q) (blockOf o p) := by
  have hdiv : ∀ x ∈ blockOf k q, x / 2 ^ o = q / 2 ^ o := fun x hx => by
    have hx := (mem_blockOf hq).1 hx
    obtain ⟨d, rfl⟩ := Nat.exists_eq_add_of_le h
    rw [pow_add, ← Nat.div_div_eq_div_mul, ← Nat.div_div_eq_div_mul, hx]
  by_cases heq : q / 2 ^ o = p / 2 ^ o
  · exact .inl fun x hx => (mem_blockOf hp).2 ((hdiv x hx).trans heq)
  · refine .inr (Set.disjoint_left.2 fun x hx hx' => heq ?_)
    rw [← hdiv x hx]
    exact (mem_blockOf hp).1 hx'

private theorem succ_xor_one (j : ℕ) : (2 * j + 1) ^^^ 1 = 2 * j := by
  rw [Nat.xor_one_of_odd (by simp)]
  omega

private theorem and_succ (j : ℕ) : (2 * j + 1) &&& (2 * j) = 2 * j := by
  have hdiv : ((2 * j + 1) &&& (2 * j)) / 2 = j := by
    rw [Nat.and_div_two, show (2 * j + 1) / 2 = j by omega, show 2 * j / 2 = j by omega,
      Nat.and_self]
  have hmod : ((2 * j + 1) &&& (2 * j)) % 2 = 0 := by
    have := Nat.and_mod_two_pow (a := 2 * j + 1) (b := 2 * j) (n := 1)
    rw [pow_one, show (2 * j + 1) % 2 = 1 by omega, show 2 * j % 2 = 0 by omega,
      Nat.and_zero] at this
    exact this
  omega

/-- A block is the lower half of its parent, or the upper half. -/
theorem buddy_cases (h : 2 ^ o ∣ p) :
    (2 ^ (o + 1) ∣ p ∧ buddyOf o p = p + 2 ^ o ∧ parentOf o p = p) ∨
      ∃ q, 2 ^ (o + 1) ∣ q ∧ p = q + 2 ^ o ∧ buddyOf o p = q ∧ parentOf o p = q := by
  obtain ⟨i, rfl⟩ := h
  have hbuddy : buddyOf o (2 ^ o * i) = 2 ^ o * (i ^^^ 1) := by
    rw [buddyOf, Nat.mul_comm, Nat.mul_comm (2 ^ o), ← Nat.shiftLeft_eq, ← Nat.shiftLeft_eq,
      Nat.shiftLeft_xor_distrib, Nat.shiftLeft_eq 1, Nat.one_mul]
  have hparent : parentOf o (2 ^ o * i) = 2 ^ o * ((i ^^^ 1) &&& i) := by
    rw [parentOf, hbuddy, Nat.mul_comm, Nat.mul_comm (2 ^ o) i, Nat.mul_comm (2 ^ o),
      ← Nat.shiftLeft_eq, ← Nat.shiftLeft_eq, ← Nat.shiftLeft_eq, Nat.shiftLeft_and_distrib]
  rcases Nat.even_or_odd' i with ⟨j, rfl | rfl⟩
  · rw [Nat.xor_one_of_even (by simp)] at hbuddy hparent
    rw [and_succ] at hparent
    exact .inl ⟨⟨j, by rw [pow_succ, Nat.mul_assoc]⟩, by rw [hbuddy, Nat.mul_succ], hparent⟩
  · rw [succ_xor_one] at hbuddy hparent
    rw [Nat.and_comm, and_succ] at hparent
    exact .inr ⟨_, ⟨j, by rw [pow_succ, Nat.mul_assoc]⟩, Nat.mul_succ .., hbuddy, hparent⟩

/-- The buddy of the buddy is the block. -/
theorem buddyOf_buddyOf (o p : ℕ) : buddyOf o (buddyOf o p) = p := by
  rw [buddyOf, buddyOf, Nat.xor_assoc, Nat.xor_self, Nat.xor_zero]

theorem buddyOf_ne (o p : ℕ) : buddyOf o p ≠ p := fun h => by
  have hx := congrArg (p ^^^ ·) h
  simp only [buddyOf, Nat.xor_xor_cancel_left, Nat.xor_self] at hx
  exact (Nat.two_pow_pos o).ne' hx

/-- The buddy is aligned as the block is. -/
theorem dvd_buddyOf (h : 2 ^ o ∣ p) : 2 ^ o ∣ buddyOf o p := by
  rcases buddy_cases h with ⟨-, hb, -⟩ | ⟨q, hq, -, hb, -⟩
  · rw [hb]
    exact Nat.dvd_add h dvd_rfl
  · rw [hb]
    exact (pow_dvd_pow 2 o.le_succ).trans hq

/-- The block of both is aligned. -/
theorem dvd_parentOf (h : 2 ^ o ∣ p) : 2 ^ (o + 1) ∣ parentOf o p := by
  rcases buddy_cases h with ⟨hp, -, heq⟩ | ⟨q, hq, -, -, heq⟩
  · rw [heq]
    exact hp
  · rw [heq]
    exact hq

/-- A block and its buddy make up their parent. -/
theorem blockOf_parentOf (h : 2 ^ o ∣ p) :
    blockOf (o + 1) (parentOf o p) = blockOf o p ∪ blockOf o (buddyOf o p) := by
  rcases buddy_cases h with ⟨-, hb, heq⟩ | ⟨q, -, rfl, hb, heq⟩
  · rw [heq, hb, blockOf_succ]
  · rw [heq, hb, blockOf_succ, Set.union_comm]

end blocks

/-! ## Systems of blocks -/

/-- The pages of the blocks. -/
def covered (B : Set (ℕ × ℕ)) : Set ℕ := {x | ∃ o p, (o, p) ∈ B ∧ x ∈ blockOf o p}

/-- Blocks, each given by its order and its first page, of which no two could be one. -/
structure IsBuddySystem (M : ℕ) (B : Set (ℕ × ℕ)) : Prop where
  order_lt : ∀ o p, (o, p) ∈ B → o < M
  aligned : ∀ o p, (o, p) ∈ B → 2 ^ o ∣ p
  disjoint : ∀ o p, (o, p) ∈ B → ∀ k q, (k, q) ∈ B → (o, p) ≠ (k, q) →
    Disjoint (blockOf o p) (blockOf k q)
  not_buddies : ∀ o p, (o, p) ∈ B → o + 1 < M → (o, buddyOf o p) ∉ B

/-- The greatest blocks, of orders below `M`, of the pages in `F`. -/
def maximalBlocks (M : ℕ) (F : Set ℕ) : Set (ℕ × ℕ) :=
  {b | b.1 < M ∧ 2 ^ b.1 ∣ b.2 ∧ blockOf b.1 b.2 ⊆ F ∧
    (b.1 + 1 < M → ¬blockOf (b.1 + 1) (parentOf b.1 b.2) ⊆ F)}

/-- The pages of `F` that are in no block of the order of pages of `F`. -/
def unusable (o : ℕ) (F : Set ℕ) : Set ℕ :=
  {x ∈ F | ∀ p, 2 ^ o ∣ p → x ∈ blockOf o p → ¬blockOf o p ⊆ F}

section systems

variable {M o k p q : ℕ} {B B' : Set (ℕ × ℕ)}

theorem blockOf_subset_covered (h : (o, p) ∈ B) : blockOf o p ⊆ covered B :=
  fun _ hx => ⟨o, p, h, hx⟩

theorem covered_insert : covered (insert (o, p) B) = covered B ∪ blockOf o p := by
  ext x
  constructor
  · rintro ⟨k, q, hk | hk, hx⟩
    · cases hk
      exact .inr hx
    · exact .inl ⟨k, q, hk, hx⟩
  · rintro (⟨k, q, hk, hx⟩ | hx)
    · exact ⟨k, q, .inr hk, hx⟩
    · exact ⟨o, p, .inl rfl, hx⟩

theorem covered_sdiff (h : (o, p) ∈ B) : covered (B \ {(o, p)}) ∪ blockOf o p = covered B := by
  rw [← covered_insert, Set.insert_sdiff_self_of_mem h]

namespace IsBuddySystem

/-- Each page is in one block at most. -/
theorem eq_of_mem (h : IsBuddySystem M B) (hp : (o, p) ∈ B) (hq : (k, q) ∈ B) {x : ℕ}
    (hx : x ∈ blockOf o p) (hx' : x ∈ blockOf k q) : (o, p) = (k, q) := by
  by_contra hne
  exact Set.disjoint_left.1 (h.disjoint o p hp k q hq hne) hx hx'

theorem mono (h : IsBuddySystem M B) (hB : B' ⊆ B) : IsBuddySystem M B' where
  order_lt o p hp := h.order_lt o p (hB hp)
  aligned o p hp := h.aligned o p (hB hp)
  disjoint o p hp k q hq := h.disjoint o p (hB hp) k q (hB hq)
  not_buddies o p hp hM hb := h.not_buddies o p (hB hp) hM (hB hb)

/-- A block of free pages is part of a free block. -/
theorem exists_of_subset (h : IsBuddySystem M B) (hk : k < M) (hq : 2 ^ k ∣ q)
    (hsub : blockOf k q ⊆ covered B) :
    ∃ o p, (o, p) ∈ B ∧ k ≤ o ∧ blockOf k q ⊆ blockOf o p := by
  induction k generalizing q with
  | zero =>
    obtain ⟨o, p, hp, hx⟩ := hsub (self_mem_blockOf 0 q)
    refine ⟨o, p, hp, Nat.zero_le o, ?_⟩
    rw [blockOf_zero]
    exact Set.singleton_subset_iff.2 hx
  | succ k ih =>
    have hdvd : 2 ^ k ∣ q := (pow_dvd_pow 2 k.le_succ).trans hq
    rw [blockOf_succ] at hsub
    -- Each half is part of a free block: of the whole block too, unless it is a free block itself.
    have hhalf : ∀ r, 2 ^ k ∣ r → r ∈ blockOf (k + 1) q → blockOf k r ⊆ covered B →
        (k, r) ∈ B ∨ ∃ o p, (o, p) ∈ B ∧ k + 1 ≤ o ∧ blockOf (k + 1) q ⊆ blockOf o p := by
      intro r hr hrq hsub
      obtain ⟨o, p, hp, hko, hrp⟩ := ih (Nat.lt_of_succ_lt hk) hr hsub
      rcases hko.eq_or_lt with rfl | hko
      · have heq := eq_of_mem_blockOf (h.aligned k p hp) hr (hrp (self_mem_blockOf k r))
        exact .inl (heq ▸ hp)
      · refine .inr ⟨o, p, hp, hko, ?_⟩
        refine (blockOf_subset_or_disjoint (h.aligned o p hp) hq hko).resolve_right fun hd => ?_
        exact Set.disjoint_left.1 hd hrq (hrp (self_mem_blockOf k r))
    have hupper : q + 2 ^ k ∈ blockOf (k + 1) q := by
      rw [blockOf_succ]
      exact .inr (self_mem_blockOf k _)
    rcases hhalf q hdvd (self_mem_blockOf _ q) (Set.union_subset_iff.1 hsub).1 with hlow | hex
    · rcases hhalf (q + 2 ^ k) (Nat.dvd_add hdvd dvd_rfl) hupper (Set.union_subset_iff.1 hsub).2 with
        hup | hex
      · -- The two halves are free buddies.
        rcases buddy_cases hdvd with ⟨-, hb, -⟩ | ⟨r, hr, hqr, -, -⟩
        · exact absurd (hb ▸ hup) (h.not_buddies k q hlow hk)
        · rw [hqr] at hq
          have := (Nat.dvd_add_right hr).1 hq
          exact absurd (Nat.le_of_dvd (Nat.two_pow_pos k) this)
            (not_le.2 (Nat.pow_lt_pow_right Nat.one_lt_two k.lt_succ_self))
      · exact hex
    · exact hex

/-- The blocks are the greatest ones of the pages they cover. -/
theorem eq_maximal (h : IsBuddySystem M B) : B = maximalBlocks M (covered B) := by
  ext ⟨o, p⟩
  constructor
  · intro hp
    refine ⟨h.order_lt o p hp, h.aligned o p hp, blockOf_subset_covered hp, fun hM hsub => ?_⟩
    obtain ⟨k, q, hq, hok, hpar⟩ := h.exists_of_subset hM (dvd_parentOf (h.aligned o p hp)) hsub
    have hmem : p ∈ blockOf (o + 1) (parentOf o p) := by
      rw [blockOf_parentOf (h.aligned o p hp)]
      exact .inl (self_mem_blockOf o p)
    cases h.eq_of_mem hp hq (self_mem_blockOf o p) (hpar hmem)
    exact absurd hok (Nat.not_succ_le_self o)
  · rintro ⟨ho, hp, hsub, hmax⟩
    obtain ⟨k, q, hq, hok, hpq⟩ := h.exists_of_subset ho hp hsub
    rcases hok.eq_or_lt with rfl | hok
    · have heq := eq_of_mem_blockOf (h.aligned o q hq) hp (hpq (self_mem_blockOf o p))
      change (o, p) ∈ B
      rw [show p = q from heq]
      exact hq
    · have hok : o + 1 ≤ k := hok
      refine absurd ?_ (hmax (hok.trans_lt (h.order_lt k q hq)))
      have hmem : p ∈ blockOf (o + 1) (parentOf o p) := by
        rw [blockOf_parentOf hp]
        exact .inl (self_mem_blockOf o p)
      refine Set.Subset.trans ?_ (blockOf_subset_covered hq)
      refine (blockOf_subset_or_disjoint (h.aligned k q hq) (dvd_parentOf hp) hok).resolve_right
        fun hd => Set.disjoint_left.1 hd hmem (hpq (self_mem_blockOf o p))

/-! ## Operations -/

/-- The pages of `F` that are in no block of the order are those of the lesser blocks. -/
theorem unusable_eq (h : IsBuddySystem M B) (ho : o < M) :
    unusable o (covered B) = covered {b ∈ B | b.1 < o} := by
  refine Set.Subset.antisymm ?_ ?_
  · rintro x ⟨⟨k, p, hp, hx⟩, hno⟩
    refine ⟨k, p, ⟨hp, not_le.1 fun hle => ?_⟩, hx⟩
    -- The block of the order that has the page is part of its block.
    have hdvd : 2 ^ o ∣ x / 2 ^ o * 2 ^ o := Nat.dvd_mul_left ..
    have hmem : x ∈ blockOf o (x / 2 ^ o * 2 ^ o) := by
      rw [mem_blockOf hdvd, Nat.mul_div_cancel _ (Nat.two_pow_pos o)]
    rcases blockOf_subset_or_disjoint (h.aligned k p hp) hdvd hle with hsub | hdisj
    · exact hno _ hdvd hmem (hsub.trans (blockOf_subset_covered hp))
    · exact Set.disjoint_left.1 hdisj hmem hx
  · rintro x ⟨k, p, ⟨hp, hlt⟩, hx⟩
    refine ⟨blockOf_subset_covered hp hx, fun q hq hxq hsub => ?_⟩
    obtain ⟨k', p', hp', hle, hsub'⟩ := h.exists_of_subset ho hq hsub
    obtain ⟨rfl, -⟩ := Prod.mk.inj (h.eq_of_mem hp hp' hx (hsub' hxq))
    exact absurd hlt (not_lt.2 hle)

theorem empty : IsBuddySystem M ∅ where
  order_lt _ _ h := h.elim
  aligned _ _ h := h.elim
  disjoint _ _ h := h.elim
  not_buddies _ _ h := h.elim

/-- A block whose buddy is not free joins the system. -/
theorem insert (h : IsBuddySystem M B) (ho : o < M) (hp : 2 ^ o ∣ p)
    (hd : Disjoint (blockOf o p) (covered B)) (hb : o + 1 < M → (o, buddyOf o p) ∉ B) :
    IsBuddySystem M (insert (o, p) B) where
  order_lt k q := by
    rintro (hq | hq)
    · cases hq
      exact ho
    · exact h.order_lt k q hq
  aligned k q := by
    rintro (hq | hq)
    · cases hq
      exact hp
    · exact h.aligned k q hq
  disjoint k q hq k' q' hq' hne := by
    rcases hq with hq | hq <;> rcases hq' with hq' | hq'
    · exact absurd (hq.trans hq'.symm) hne
    · cases hq
      exact hd.mono_right (blockOf_subset_covered hq')
    · cases hq'
      exact (hd.mono_right (blockOf_subset_covered hq)).symm
    · exact h.disjoint k q hq k' q' hq' hne
  not_buddies k q := by
    rintro (hq | hq) hM (hq' | hq')
    · cases hq
      exact buddyOf_ne o p (Prod.mk.inj hq').2
    · cases hq
      exact hb hM hq'
    · -- The buddy of the block is in the system.
      obtain ⟨rfl, hpq⟩ := Prod.mk.inj hq'
      refine hb hM ?_
      rw [← hpq, buddyOf_buddyOf]
      exact hq
    · exact h.not_buddies k q hq hM hq'

/-- A block is disjoint from the others. -/
theorem disjoint_sdiff (h : IsBuddySystem M B) (hp : (o, p) ∈ B) :
    Disjoint (blockOf o p) (covered (B \ {(o, p)})) := by
  refine Set.disjoint_left.2 ?_
  rintro x hx ⟨k, q, ⟨hq, hne⟩, hx'⟩
  exact hne (h.eq_of_mem hp hq hx hx').symm

/-- A block and its buddy become their parent. -/
theorem merge (h : IsBuddySystem M B) (hp : 2 ^ o ∣ p) (hd : Disjoint (blockOf o p) (covered B))
    (hb : (o, buddyOf o p) ∈ B) :
    Disjoint (blockOf (o + 1) (parentOf o p)) (covered (B \ {(o, buddyOf o p)})) ∧
      covered (B \ {(o, buddyOf o p)}) ∪ blockOf (o + 1) (parentOf o p) =
        covered B ∪ blockOf o p := by
  have hcov := covered_sdiff hb
  rw [blockOf_parentOf hp]
  refine ⟨Disjoint.union_left ?_ (h.disjoint_sdiff hb), ?_⟩
  · exact hd.mono_right (hcov ▸ Set.subset_union_left)
  · rw [Set.union_comm (blockOf o p), ← Set.union_assoc, hcov]

/-- The upper half of a block joins the system, and its lower half does not. -/
theorem split (h : IsBuddySystem M B) (ho : o < M) (hp : 2 ^ (o + 1) ∣ p)
    (hd : Disjoint (blockOf (o + 1) p) (covered B)) :
    IsBuddySystem M (Insert.insert (o, p + 2 ^ o) B) ∧
      Disjoint (blockOf o p) (covered (Insert.insert (o, p + 2 ^ o) B)) ∧
      covered (Insert.insert (o, p + 2 ^ o) B) ∪ blockOf o p = covered B ∪ blockOf (o + 1) p := by
  have hdvd : 2 ^ o ∣ p := (pow_dvd_pow 2 o.le_succ).trans hp
  rw [blockOf_succ] at hd ⊢
  obtain ⟨hlow, hup⟩ := Set.disjoint_union_left.1 hd
  have hbuddy : buddyOf o (p + 2 ^ o) = p := by
    rcases buddy_cases hdvd with ⟨-, hb, -⟩ | ⟨q, hq, rfl, -, -⟩
    · rw [← hb, buddyOf_buddyOf]
    · have := (Nat.dvd_add_right hq).1 hp
      exact absurd (Nat.le_of_dvd (Nat.two_pow_pos o) this)
        (not_le.2 (Nat.pow_lt_pow_right Nat.one_lt_two o.lt_succ_self))
  refine ⟨h.insert ho (Nat.dvd_add hdvd dvd_rfl) hup fun _ hmem => ?_, ?_, ?_⟩
  · rw [hbuddy] at hmem
    exact Set.disjoint_left.1 hlow (self_mem_blockOf o p) ⟨o, p, hmem, self_mem_blockOf o p⟩
  · rw [covered_insert]
    exact Set.disjoint_union_right.2 ⟨hlow, disjoint_halves o p⟩
  · rw [covered_insert, Set.union_assoc, Set.union_comm (blockOf o (p + 2 ^ o))]

end IsBuddySystem

end systems

/-! ## Lists of blocks -/

/-- Blocks of which no two have a page in common. -/
structure IsPacking (M : ℕ) (H : List (ℕ × ℕ)) : Prop where
  order_lt : ∀ b ∈ H, b.1 < M
  aligned : ∀ b ∈ H, 2 ^ b.1 ∣ b.2
  pairwise : H.Pairwise fun b b' => Disjoint (blockOf b.1 b.2) (blockOf b'.1 b'.2)

/-- The pages of the blocks. -/
def pagesOf (H : List (ℕ × ℕ)) : Set ℕ := covered {b | b ∈ H}

/-- The number of pages of the blocks. -/
def weight (H : List (ℕ × ℕ)) : ℕ := (H.map fun b => 2 ^ b.1).sum

section packings

variable {M o p : ℕ} {H H' : List (ℕ × ℕ)}

theorem pagesOf_nil : pagesOf [] = ∅ :=
  Set.eq_empty_of_forall_notMem fun _ ⟨_, _, hp, _⟩ => List.not_mem_nil hp

theorem pagesOf_cons : pagesOf ((o, p) :: H) = pagesOf H ∪ blockOf o p := by
  have hset : {b | b ∈ (o, p) :: H} = insert (o, p) {b | b ∈ H} := by
    ext b
    exact List.mem_cons
  rw [pagesOf, hset, covered_insert, pagesOf]

theorem pagesOf_append : pagesOf (H ++ H') = pagesOf H ∪ pagesOf H' := by
  induction H with
  | nil => rw [List.nil_append, pagesOf_nil, Set.empty_union]
  | cons b H ih => rw [List.cons_append, pagesOf_cons, pagesOf_cons, ih, Set.union_right_comm]

/-- The order of the blocks does not matter. -/
theorem pagesOf_perm (h : H.Perm H') : pagesOf H = pagesOf H' :=
  congrArg covered (Set.ext fun _ => h.mem_iff)

theorem weight_cons : weight ((o, p) :: H) = 2 ^ o + weight H := by
  rw [weight, List.map_cons, List.sum_cons, weight]

theorem weight_append : weight (H ++ H') = weight H + weight H' := by
  rw [weight, List.map_append, List.sum_append, weight, weight]

theorem finite_blockOf (o p : ℕ) : (blockOf o p).Finite := Set.finite_Ico ..

theorem ncard_blockOf (o p : ℕ) : (blockOf o p).ncard = 2 ^ o := by
  rw [blockOf, ← Finset.coe_Ico, Set.ncard_coe_finset, Nat.card_Ico, Nat.add_sub_cancel_left]

namespace IsPacking

theorem nil : IsPacking M [] where
  order_lt _ h := absurd h List.not_mem_nil
  aligned _ h := absurd h List.not_mem_nil
  pairwise := .nil

theorem perm (h : IsPacking M H) (hp : H.Perm H') : IsPacking M H' where
  order_lt b hb := h.order_lt b (hp.mem_iff.2 hb)
  aligned b hb := h.aligned b (hp.mem_iff.2 hb)
  pairwise := (hp.pairwise_iff fun hd => hd.symm).1 h.pairwise

/-- A block is added to a packing. -/
theorem cons_iff : IsPacking M ((o, p) :: H) ↔
    o < M ∧ 2 ^ o ∣ p ∧ Disjoint (blockOf o p) (pagesOf H) ∧ IsPacking M H := by
  have hd : Disjoint (blockOf o p) (pagesOf H) ↔
      ∀ b ∈ H, Disjoint (blockOf o p) (blockOf b.1 b.2) := by
    constructor
    · exact fun hd b hb => hd.mono_right (blockOf_subset_covered hb)
    · intro hd
      refine Set.disjoint_left.2 ?_
      rintro x hx ⟨k, q, hq, hx'⟩
      exact Set.disjoint_left.1 (hd (k, q) hq) hx hx'
  rw [hd]
  constructor
  · intro h
    obtain ⟨hhead, htail⟩ := List.pairwise_cons.1 h.pairwise
    exact ⟨h.order_lt _ List.mem_cons_self, h.aligned _ List.mem_cons_self, hhead,
      fun b hb => h.order_lt b (List.mem_cons_of_mem _ hb),
      fun b hb => h.aligned b (List.mem_cons_of_mem _ hb), htail⟩
  · rintro ⟨ho, hp, hhead, h⟩
    exact ⟨List.forall_mem_cons.2 ⟨ho, h.order_lt⟩, List.forall_mem_cons.2 ⟨hp, h.aligned⟩,
      List.pairwise_cons.2 ⟨hhead, h.pairwise⟩⟩

/-- Two packings of different pages make one. -/
theorem append_iff : IsPacking M (H ++ H') ↔
    IsPacking M H ∧ IsPacking M H' ∧ Disjoint (pagesOf H) (pagesOf H') := by
  induction H with
  | nil =>
    rw [List.nil_append, pagesOf_nil]
    exact ⟨fun h => ⟨nil, h, Set.empty_disjoint _⟩, fun h => h.2.1⟩
  | cons b H ih =>
    rw [List.cons_append, cons_iff, cons_iff, ih, pagesOf_append, pagesOf_cons,
      Set.disjoint_union_right, Set.disjoint_union_left]
    tauto

/-- A packing has as many pages as its blocks have together. -/
theorem finite (h : IsPacking M H) : (pagesOf H).Finite ∧ (pagesOf H).ncard = weight H := by
  induction H with
  | nil =>
    rw [pagesOf_nil]
    exact ⟨Set.finite_empty, Set.ncard_empty ℕ⟩
  | cons b H ih =>
    obtain ⟨-, -, hd, h⟩ := cons_iff.1 h
    obtain ⟨hfin, hcard⟩ := ih h
    rw [pagesOf_cons]
    refine ⟨hfin.union (finite_blockOf ..), ?_⟩
    rw [Set.ncard_union_eq hd.symm hfin (finite_blockOf ..), hcard, ncard_blockOf, weight_cons,
      Nat.add_comm]

end IsPacking

/-- How many pages the blocks of a system have. -/
theorem IsBuddySystem.finite {B : Set (ℕ × ℕ)} (h : IsBuddySystem M B) (hf : B.Finite) :
    (covered B).Finite ∧ (covered B).ncard = ∑ b ∈ hf.toFinset, 2 ^ b.1 := by
  have hmem : ∀ b, b ∈ hf.toFinset.toList ↔ b ∈ B := fun b => by
    rw [Finset.mem_toList, hf.mem_toFinset]
  have hpack : IsPacking M hf.toFinset.toList := by
    refine ⟨fun b hb => h.order_lt b.1 b.2 ((hmem b).1 hb),
      fun b hb => h.aligned b.1 b.2 ((hmem b).1 hb), ?_⟩
    refine (List.nodup_iff_pairwise_ne.1 (Finset.nodup_toList _)).imp_of_mem fun hb hb' hne => ?_
    exact h.disjoint _ _ ((hmem _).1 hb) _ _ ((hmem _).1 hb') hne
  have hpages : pagesOf hf.toFinset.toList = covered B := congrArg covered (Set.ext hmem)
  rw [← hpages, ← Finset.sum_map_toList]
  exact hpack.finite

/-- The single pages of a block. -/
def singles (o p : ℕ) : List (ℕ × ℕ) := (List.range (2 ^ o)).map fun i => (0, p + i)

theorem mem_singles {b : ℕ × ℕ} : b ∈ singles o p ↔ b.1 = 0 ∧ b.2 ∈ blockOf o p := by
  obtain ⟨k, q⟩ := b
  rw [singles, List.mem_map]
  constructor
  · rintro ⟨i, hi, heq⟩
    obtain ⟨rfl, rfl⟩ := Prod.mk.inj heq
    exact ⟨rfl, Nat.le_add_right p i, Nat.add_lt_add_left (List.mem_range.1 hi) p⟩
  · rintro ⟨rfl, hle, hlt⟩
    change q < p + 2 ^ o at hlt
    change p ≤ q at hle
    exact ⟨q - p, List.mem_range.2 (by omega), Prod.ext rfl (by change p + (q - p) = q; omega)⟩

theorem pagesOf_singles : pagesOf (singles o p) = blockOf o p := by
  ext x
  constructor
  · rintro ⟨k, q, hq, hx⟩
    obtain ⟨rfl, hq⟩ := mem_singles.1 hq
    rw [blockOf_zero, Set.mem_singleton_iff] at hx
    exact hx ▸ hq
  · exact fun hx => ⟨0, x, mem_singles.2 ⟨rfl, hx⟩, self_mem_blockOf 0 x⟩

/-- A block is split into single pages. -/
theorem isPacking_singles (hM : 0 < M) : IsPacking M (singles o p) where
  order_lt b hb := (mem_singles.1 hb).1 ▸ hM
  aligned b hb := by
    rw [(mem_singles.1 hb).1]
    exact one_dvd _
  pairwise := by
    rw [singles, List.pairwise_map]
    refine List.nodup_range.pairwise_of_forall_ne fun i _ j _ hij => ?_
    rw [blockOf_zero, blockOf_zero]
    exact Set.disjoint_singleton.2 fun heq => hij (Nat.add_left_cancel heq)

end packings

end Mcpq
