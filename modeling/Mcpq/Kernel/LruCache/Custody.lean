import Mcpq.Kernel.LruCache.Instructions

/-!
# Who may do what to a page

What the instructions of a thread claim of a page (`Claim`): to hold a reference to it, to have taken it
off the LRU lists, to be the one that frees it. A page is either free, or off the LRU lists, or waiting in
one place, or in the custody of one thread; its `_count` is the number of the references to it, unless
these are frozen; and while it is 0, the page is free or one thread is about to free it (`Valid`).

The rules (`Valid.get` and those that follow it) say what may become of one page, and of what is claimed
of it, whatever else is claimed.
-/

namespace Mcpq.Kernel.LruCache

/-- What is claimed of a page. -/
inductive Claim
  /-- A reference. -/
  | ref
  /-- A reference and the custody of the page, whose zone and flags are known. -/
  | held (know : ZoneRef → LruFlags → Prop)
  /-- The same, while the references are frozen. -/
  | frozen (know : ZoneRef → LruFlags → Prop)
  /-- To free the page, before `PG_lru` has been read. -/
  | test
  /-- To free the page, and to take it off its LRU list before. -/
  | del
  /-- To free the page, which is not on an LRU list. -/
  | gone

/-- No flag is set that a page must not have when it is freed. -/
def LruFlags.Clean (f : LruFlags) : Prop :=
  f.lru = false ∧ f.active = false ∧ f.unevictable = false

namespace Claim

/-- The claims that are references. -/
@[simp] def isRef : Claim → Bool
  | ref => true
  | held _ => true
  | frozen _ => true
  | _ => false

/-- The claims of `page_freeze_refs`, which holds `_count` at 0. -/
@[simp] def isFrozen : Claim → Bool
  | frozen _ => true
  | _ => false

/-- The claims of a thread that has brought `_count` to 0. -/
@[simp] def isDying : Claim → Bool
  | frozen _ => true
  | test => true
  | del => true
  | gone => true
  | _ => false

/-- The claims of a thread that has the page off the lists. -/
@[simp] def isCustody : Claim → Bool
  | held _ => true
  | frozen _ => true
  | gone => true
  | _ => false

/-- What a claim says about the zone and the flags of the page. -/
def Knows (z : ZoneRef) (f : LruFlags) : Claim → Prop
  | held know => know z f
  | frozen know => know z f
  | del => f.lru = true
  | gone => f.Clean
  | _ => True

end Claim

section Counts

variable (M : Multiset Claim)

/-- The number of the references. -/
def refs : ℕ := M.countP fun c => c.isRef = true

/-- The number of the times that the references are frozen. -/
def frozen : ℕ := M.countP fun c => c.isFrozen = true

/-- The number of the threads that have brought `_count` to 0. -/
def dying : ℕ := M.countP fun c => c.isDying = true

/-- The number of the threads that have the page off the lists. -/
def custody : ℕ := M.countP fun c => c.isCustody = true

variable {M} {N : Multiset Claim} {c : Claim} (n : ℕ)

/-- A claim counts, or not. -/
theorem countP_singleton (p : Claim → Bool) :
    Multiset.countP (fun c => p c = true) {c} = (p c).toNat := by
  rw [← Multiset.cons_zero, Multiset.countP_cons, Multiset.countP_zero, zero_add]
  cases p c <;> rfl

@[simp] theorem refs_zero : refs 0 = 0 := rfl
@[simp] theorem frozen_zero : frozen 0 = 0 := rfl
@[simp] theorem dying_zero : dying 0 = 0 := rfl
@[simp] theorem custody_zero : custody 0 = 0 := rfl

@[simp] theorem refs_add : refs (M + N) = refs M + refs N := Multiset.countP_add ..
@[simp] theorem frozen_add : frozen (M + N) = frozen M + frozen N := Multiset.countP_add ..
@[simp] theorem dying_add : dying (M + N) = dying M + dying N := Multiset.countP_add ..
@[simp] theorem custody_add : custody (M + N) = custody M + custody N := Multiset.countP_add ..

@[simp] theorem refs_singleton : refs {c} = c.isRef.toNat := countP_singleton _
@[simp] theorem frozen_singleton : frozen {c} = c.isFrozen.toNat := countP_singleton _
@[simp] theorem dying_singleton : dying {c} = c.isDying.toNat := countP_singleton _
@[simp] theorem custody_singleton : custody {c} = c.isCustody.toNat := countP_singleton _

@[simp] theorem refs_cons : refs (c ::ₘ M) = c.isRef.toNat + refs M := by
  rw [← Multiset.singleton_add, refs_add, refs_singleton]

@[simp] theorem frozen_cons : frozen (c ::ₘ M) = c.isFrozen.toNat + frozen M := by
  rw [← Multiset.singleton_add, frozen_add, frozen_singleton]

@[simp] theorem dying_cons : dying (c ::ₘ M) = c.isDying.toNat + dying M := by
  rw [← Multiset.singleton_add, dying_add, dying_singleton]

@[simp] theorem custody_cons : custody (c ::ₘ M) = c.isCustody.toNat + custody M := by
  rw [← Multiset.singleton_add, custody_add, custody_singleton]

@[simp] theorem refs_nsmul : refs (n • M) = n * refs M := Multiset.countP_nsmul ..
@[simp] theorem frozen_nsmul : frozen (n • M) = n * frozen M := Multiset.countP_nsmul ..
@[simp] theorem dying_nsmul : dying (n • M) = n * dying M := Multiset.countP_nsmul ..
@[simp] theorem custody_nsmul : custody (n • M) = n * custody M := Multiset.countP_nsmul ..

/-- A claim to a page whose references are frozen is one of all kinds, and the custody of a page comes
    with a reference or with the duty to free it. -/
theorem frozen_le (M : Multiset Claim) :
    frozen M ≤ refs M ∧ frozen M ≤ dying M ∧ custody M ≤ refs M + dying M := by
  induction M using Multiset.induction_on with
  | empty => simp
  | cons c M ih =>
    cases c <;> simp <;> omega

/-- There is a thread that is about to free the page. -/
theorem dying_pos (hc : c ∈ M) (h : c.isDying = true) : 0 < dying M :=
  Multiset.countP_pos.2 ⟨c, hc, h⟩

/-- There is a thread that has the page in custody. -/
theorem custody_pos (hc : c ∈ M) (h : c.isCustody = true) : 0 < custody M :=
  Multiset.countP_pos.2 ⟨c, hc, h⟩

end Counts

/-! ## Valid claims -/

variable {C : Type*}

/-- What the threads share about a page, and where it waits. -/
structure View (C : Type*) where
  count : ℤ
  flags : LruFlags
  users : ℕ
  cached : Bool
  free : Bool
  off : Bool
  /-- How often it is in `lru_rotate_pvecs`. -/
  rotating : ℕ
  home : Option (Place C)

/-- The page is in one of the `lru_add_pvecs`. -/
def waiting : Option (Place C) → ℕ
  | none => 0
  | some (.lru _ _) => 0
  | some (.pvec _ _) => 1

/-- The flags are those of the pages on the list. -/
def LruFlags.OnList (f : LruFlags) (l : ℕ) : Prop :=
  f.unevictable = decide (l = lruUnevictable) ∧ f.active = isActiveLru l ∧
    (f.unevictable = false → f.file = isFileLru l) ∧ l < nrLruLists

/-- The flags are those of a page that is about to be put on the list. -/
def LruFlags.Awaits (f : LruFlags) (l : ℕ) : Prop :=
  f.Clean ∧ f.file = isFileLru l ∧ l < lruUnevictable

/-- The flags say where the page waits. -/
def LruFlags.Fits (z : ZoneRef) (f : LruFlags) : Option (Place C) → Prop
  | none => f.lru = false
  | some (.lru z' l) => f.lru = true ∧ z' = z ∧ f.OnList l
  | some (.pvec _ l) => f.Awaits l

/-- What is claimed of a page is right. -/
structure Valid (z : ZoneRef) (v : View C) (M : Multiset Claim) : Prop where
  count_eq : v.count + 2 * frozen M = v.users + v.cached.toNat + waiting v.home + v.rotating + refs M
  alive : v.count ≠ 0 → v.free.toNat + dying M = 0
  dead : v.count = 0 → v.free.toNat + dying M = 1
  custody_eq : v.free.toNat + v.off.toNat + v.home.isSome.toNat + custody M = 1
  cached_of_frozen : 0 < frozen M → v.cached = true
  fits : v.flags.Fits z v.home
  clean : v.free = true ∨ v.off = true → v.flags.Clean
  knows : ∀ c ∈ M, c.Knows z v.flags

namespace Valid

variable {z : ZoneRef} {v : View C} {M R : Multiset Claim} {c : Claim} {f : LruFlags}
  {know know' : ZoneRef → LruFlags → Prop}

/-- The claims besides the custody of a page hold on when its flags change, if `PG_lru` is not taken from
    a thread that needs it. -/
theorem knows_congr (h : ∀ c ∈ R, c.Knows z f) (hc : custody R = 0) {f' : LruFlags}
    (hf : dying R = 0 ∨ f'.lru = f.lru ∨ f'.lru = true) : ∀ c ∈ R, c.Knows z f' := by
  intro c hcR
  have hcust : c.isCustody ≠ true := fun h => (custody_pos hcR h).ne' hc
  cases c with
  | ref => trivial
  | test => trivial
  | held => exact absurd rfl hcust
  | frozen => exact absurd rfl hcust
  | gone => exact absurd rfl hcust
  | del =>
    rcases hf with hf | hf | hf
    · exact absurd hf (dying_pos hcR rfl).ne'
    · exact hf.trans (h _ hcR)
    · exact hf

/-- One more claim that knows the flags. -/
theorem knows_cons (h : ∀ c ∈ R, c.Knows z f) (hc : c.Knows z f) : ∀ d ∈ c ::ₘ R, d.Knows z f :=
  fun d hd => (Multiset.mem_cons.1 hd).elim (fun heq => heq ▸ hc) (h d)

/-- What the first claim knows. -/
theorem knows_head (h : Valid z v (c ::ₘ R)) : c.Knows z v.flags :=
  h.knows c (Multiset.mem_cons_self c R)

/-- What the other ones know. -/
theorem knows_tail (h : Valid z v (c ::ₘ R)) : ∀ d ∈ R, d.Knows z v.flags :=
  fun d hd => h.knows d (Multiset.mem_cons_of_mem hd)

/-! ## Rules -/

/-- There is a reference to the page that is not frozen. -/
theorem count_ne_zero (h : Valid z v M) (hr : frozen M < v.users + refs M) : v.count ≠ 0 := by
  intro hc
  obtain ⟨-, hf, -⟩ := frozen_le M
  have hcount := h.count_eq
  have hdead := h.dead hc
  rcases Nat.eq_zero_or_pos (frozen M) with hz | hz
  · omega
  · rw [h.cached_of_frozen hz, Bool.toNat_true] at hcount
    omega

/-- A page that a thread holds a reference to has a positive count. -/
theorem count_ne_zero_of_isRef (h : Valid z v (c ::ₘ R)) (hr : c.isRef = true)
    (hf : c.isFrozen = false) : v.count ≠ 0 := by
  refine h.count_ne_zero ?_
  have := (frozen_le R).1
  rw [frozen_cons, refs_cons, hr, hf, Bool.toNat_true, Bool.toNat_false]
  omega

/-- A page that is in use: there is no claim to free it. -/
theorem in_use (h : Valid z v M) (hc : v.count ≠ 0) :
    0 < v.count ∧ v.free = false ∧ frozen M = 0 ∧ dying M = 0 ∧
      v.count = v.users + v.cached.toNat + waiting v.home + v.rotating + refs M ∧
        v.off.toNat + v.home.isSome.toNat + custody M = 1 := by
  have hle := (frozen_le M).2.1
  have hcount := h.count_eq
  have halive := h.alive hc
  have hcust := h.custody_eq
  have hfree : v.free = false := by
    rw [← Bool.toNat_eq_zero]
    omega
  rw [hfree, Bool.toNat_false] at hcust
  exact ⟨by omega, hfree, by omega, by omega, by omega, by omega⟩

section Fields

variable {count : ℤ} {users rotating : ℕ} {cached free off : Bool} {home : Option (Place C)}

/-- The claims to a page that is in use. -/
theorem of_in_use
    (hnum : 0 < count ∧ dying M = 0 ∧
      count = users + cached.toNat + waiting home + rotating + refs M ∧
        off.toNat + home.isSome.toNat + custody M = 1)
    (hfree : free = false) (hfits : f.Fits z home) (hclean : off = true → f.Clean)
    (hknows : ∀ c ∈ M, c.Knows z f) :
    Valid z ⟨count, f, users, cached, free, off, rotating, home⟩ M := by
  have hle := (frozen_le M).2.1
  obtain ⟨hpos, hd, hcount, hcust⟩ := hnum
  refine ⟨?_, fun _ => ?_, fun hc => ?_, ?_, fun hf => ?_, hfits,
    fun h => hclean (h.resolve_left (by rw [hfree]; simp)), hknows⟩
  · simp only
    omega
  · rw [hfree, hd, Bool.toNat_false]
  · simp only at hc
    omega
  · rw [hfree, Bool.toNat_false]
    simp only
    omega
  · omega

/-- A page that one thread is about to free, and nobody else has a claim to. -/
theorem of_unreferenced
    (hnum : count = 0 ∧ users = 0 ∧ cached.toNat = 0 ∧ waiting home = 0 ∧ rotating = 0 ∧ refs R = 0 ∧
      dying R = 0 ∧ off.toNat + home.isSome.toNat + c.isCustody.toNat = 1)
    (hfree : free = false) (hd : c.isDying = true) (hf : c.isRef = false) (hfits : f.Fits z home)
    (hclean : off = true → f.Clean) (hknows : ∀ d ∈ c ::ₘ R, d.Knows z f) :
    Valid z ⟨count, f, users, cached, free, off, rotating, home⟩ (c ::ₘ R) := by
  obtain ⟨hf₁, -, hf₃⟩ := frozen_le R
  obtain ⟨hc, hu, hcached, hw, hrot, hr, hdy, hcust⟩ := hnum
  have hcf : c.isFrozen = false := by cases c <;> simp at hf ⊢
  have hfr : frozen (c ::ₘ R) = 0 := by
    rw [frozen_cons, hcf, Bool.toNat_false]
    omega
  refine ⟨?_, fun h => absurd hc h, fun _ => ?_, ?_, fun h => absurd hfr h.ne', hfits,
    fun h => hclean (h.resolve_left (by rw [hfree]; simp)), hknows⟩
  · rw [hfr, refs_cons, hf, Bool.toNat_false]
    simp only
    omega
  · rw [hfree, dying_cons, hd, Bool.toNat_false, Bool.toNat_true]
    omega
  · rw [hfree, custody_cons, Bool.toNat_false]
    simp only
    omega

end Fields

/-- A page that one thread is about to free. -/
theorem unreferenced (h : Valid z v (c ::ₘ R)) (hd : c.isDying = true) (hf : c.isFrozen = false) :
    v.count = 0 ∧ v.users = 0 ∧ v.cached = false ∧ waiting v.home = 0 ∧ v.rotating = 0 ∧ v.free = false ∧
      refs R = 0 ∧ dying R = 0 ∧ v.off.toNat + v.home.isSome.toNat + c.isCustody.toNat = 1 := by
  obtain ⟨-, hf₂, hf₃⟩ := frozen_le R
  have hcount := h.count_eq
  have hcust := h.custody_eq
  have hc : v.count = 0 := by
    by_contra hc
    have := h.alive hc
    rw [dying_cons, hd, Bool.toNat_true] at this
    omega
  have hdead := h.dead hc
  rw [dying_cons, hd, Bool.toNat_true] at hdead
  rw [frozen_cons, refs_cons, hf, Bool.toNat_false] at hcount
  have hfree : v.free = false := by
    rw [← Bool.toNat_eq_zero]
    omega
  have hcached : v.cached = false := by
    rw [← Bool.toNat_eq_zero]
    omega
  rw [hfree, Bool.toNat_false, custody_cons] at hcust
  exact ⟨hc, by omega, hcached, by omega, by omega, hfree, by omega, by omega, by omega⟩

/-- A page that is free: nobody has a reference to it, and it waits nowhere. -/
theorem unused (h : Valid z v R) (hfree : v.free = true) :
    v.count = 0 ∧ v.users = 0 ∧ v.cached = false ∧ v.home = none ∧ v.rotating = 0 ∧ refs R = 0 ∧
      dying R = 0 ∧ custody R = 0 := by
  have hle := (frozen_le R).2.1
  have hcount := h.count_eq
  have hcust := h.custody_eq
  have hc : v.count = 0 := by
    by_contra hc
    have := h.alive hc
    rw [hfree, Bool.toNat_true] at this
    omega
  have hdead := h.dead hc
  rw [hfree, Bool.toNat_true] at hdead hcust
  have hcached : v.cached = false := by
    rw [← Bool.toNat_eq_zero]
    omega
  have hhome : v.home.isSome = false := by
    rw [← Bool.toNat_eq_zero]
    omega
  exact ⟨hc, by omega, hcached, by simpa using hhome, by omega, by omega, by omega, by omega⟩

/-- A page with `PG_lru` is on a list. -/
theorem listed (h : Valid z v M) (hl : v.flags.lru = true) :
    ∃ l, v.home = some (.lru z l) ∧ v.flags.OnList l := by
  have hfits := h.fits
  match hh : v.home with
  | none =>
    rw [hh] at hfits
    exact absurd hl (by rw [show v.flags.lru = false from hfits]; simp)
  | some (.lru z' l) =>
    rw [hh] at hfits
    obtain ⟨-, rfl, hon⟩ := hfits
    exact ⟨l, rfl, hon⟩
  | some (.pvec c l) =>
    rw [hh] at hfits
    exact absurd hl (by rw [hfits.1.1]; simp)

/-- A page in the custody of a thread waits nowhere. -/
theorem home_eq_none (h : Valid z v (c ::ₘ R)) (hc : c.isCustody = true) :
    v.home = none ∧ v.free = false ∧ v.off = false ∧ custody R = 0 := by
  have hcust := h.custody_eq
  rw [custody_cons, hc, Bool.toNat_true] at hcust
  have hhome : v.home.isSome = false := by
    rw [← Bool.toNat_eq_zero]
    omega
  refine ⟨by simpa using hhome, ?_, ?_, by omega⟩
  all_goals
    rw [← Bool.toNat_eq_zero]
    omega

/-- Nobody has the custody of a page that waits somewhere. -/
theorem custody_eq_zero (h : Valid z v R) (hh : v.home.isSome = true) :
    custody R = 0 ∧ v.free = false ∧ v.off = false := by
  have hcust := h.custody_eq
  rw [hh, Bool.toNat_true] at hcust
  refine ⟨by omega, ?_, ?_⟩
  all_goals
    rw [← Bool.toNat_eq_zero]
    omega

/-! ### References -/

/-- A thread gets another reference. -/
theorem get (h : Valid z v R) (hc : v.count ≠ 0) :
    Valid z { v with count := v.count + 1 } (.ref ::ₘ R) := by
  obtain ⟨hpos, hfree, -, hd, hcount, hcust⟩ := h.in_use hc
  refine of_in_use ?_ hfree h.fits (fun ho => h.clean (.inr ho)) (knows_cons h.knows trivial)
  simp only [refs_cons, dying_cons, custody_cons, Claim.isRef, Claim.isDying, Claim.isCustody,
    Bool.toNat_true, Bool.toNat_false]
  omega

/-- `put_page_testzero`. -/
theorem put (h : Valid z v (.ref ::ₘ R)) :
    Valid z { v with count := v.count + -1 } (if v.count + -1 = 0 then .test ::ₘ R else R) := by
  obtain ⟨hpos, hfree, -, hd, hcount, hcust⟩ := h.in_use (h.count_ne_zero_of_isRef rfl rfl)
  have hle := (frozen_le R).2.2
  simp only [refs_cons, dying_cons, custody_cons, Claim.isRef, Claim.isDying, Claim.isCustody,
    Bool.toNat_true, Bool.toNat_false] at hd hcount hcust
  split_ifs with hz
  · refine of_unreferenced ?_ hfree rfl rfl h.fits (fun ho => h.clean (.inr ho))
      (knows_cons h.knows_tail trivial)
    simp only [Claim.isCustody, Bool.toNat_false]
    omega
  · exact of_in_use (by omega) hfree h.fits (fun ho => h.clean (.inr ho)) h.knows_tail

/-- A user gives its reference to a thread. -/
theorem lend (h : Valid z v R) {n : ℕ} (hn : n ≤ v.users) :
    Valid z { v with users := v.users - n } (n • {.ref} + R) := by
  rcases Nat.eq_zero_or_pos n with rfl | hpos
  · rw [Nat.sub_zero, zero_nsmul, zero_add]
    exact h
  have hle := frozen_le R
  obtain ⟨hpos, hfree, -, hd, hcount, hcust⟩ := h.in_use (h.count_ne_zero (by omega))
  refine of_in_use ?_ hfree h.fits (fun ho => h.clean (.inr ho)) fun c hc => ?_
  · simp only [refs_add, dying_add, custody_add, refs_nsmul, dying_nsmul, custody_nsmul, refs_singleton,
      dying_singleton, custody_singleton, Claim.isRef, Claim.isDying, Claim.isCustody, Bool.toNat_true,
      Bool.toNat_false]
    omega
  · rcases Multiset.mem_add.1 hc with hc | hc
    · rw [Multiset.mem_singleton.1 (Multiset.mem_of_mem_nsmul hc)]
      trivial
    · exact h.knows c hc

/-- The reference of a thread becomes one of a user. -/
theorem giveBack (h : Valid z v (.ref ::ₘ R)) : Valid z { v with users := v.users + 1 } R := by
  obtain ⟨hpos, hfree, -, hd, hcount, hcust⟩ := h.in_use (h.count_ne_zero_of_isRef rfl rfl)
  simp only [refs_cons, dying_cons, custody_cons, Claim.isRef, Claim.isDying, Claim.isCustody,
    Bool.toNat_true, Bool.toNat_false] at hd hcount hcust
  exact of_in_use (by omega) hfree h.fits (fun ho => h.clean (.inr ho)) h.knows_tail

/-- The pages of `lru_rotate_pvecs` are taken by a thread. -/
theorem unrotate (h : Valid z v R) {n k : ℕ} (hn : v.rotating = n + k) :
    Valid z { v with rotating := k } (n • {.ref} + R) := by
  rcases Nat.eq_zero_or_pos n with rfl | hpos
  · rw [zero_nsmul, zero_add]
    rw [zero_add] at hn
    exact hn ▸ h
  have hcount : v.count ≠ 0 := by
    intro hc
    have hdead := h.dead hc
    have hcount := h.count_eq
    have hle := frozen_le R
    rcases Nat.eq_zero_or_pos (frozen R) with hz | hz
    · omega
    · rw [h.cached_of_frozen hz, Bool.toNat_true] at hcount
      omega
  obtain ⟨hpos, hfree, -, hd, hcount, hcust⟩ := h.in_use hcount
  refine of_in_use ?_ hfree h.fits (fun ho => h.clean (.inr ho)) fun c hc => ?_
  · simp only [refs_add, dying_add, custody_add, refs_nsmul, dying_nsmul, custody_nsmul, refs_singleton,
      dying_singleton, custody_singleton, Claim.isRef, Claim.isDying, Claim.isCustody, Bool.toNat_true,
      Bool.toNat_false]
    omega
  · rcases Multiset.mem_add.1 hc with hc | hc
    · rw [Multiset.mem_singleton.1 (Multiset.mem_of_mem_nsmul hc)]
      trivial
    · exact h.knows c hc

/-- A page is added to one of the `lru_rotate_pvecs`. -/
theorem rotate (h : Valid z v (.ref ::ₘ R)) :
    Valid z { v with count := v.count + 1, rotating := v.rotating + 1 } (.ref ::ₘ R) := by
  obtain ⟨hpos, hfree, -, hd, hcount, hcust⟩ := h.in_use (h.count_ne_zero_of_isRef rfl rfl)
  exact of_in_use (by omega) hfree h.fits (fun ho => h.clean (.inr ho)) h.knows

/-! ### Freeing -/

/-- A page that is about to be freed has `PG_lru`. -/
theorem testLru (h : Valid z v (.test ::ₘ R)) (hl : v.flags.lru = true) :
    Valid z v (.del ::ₘ R) := by
  obtain ⟨hc, hu, hcached, hw, hrot, hfree, hr, hdy, hcust⟩ := h.unreferenced rfl rfl
  refine of_unreferenced ?_ hfree rfl rfl h.fits (fun ho => h.clean (.inr ho))
    (knows_cons h.knows_tail hl)
  rw [hcached]
  exact ⟨hc, hu, rfl, hw, hrot, hr, hdy, hcust⟩

/-- A page that is about to be freed has not. -/
theorem testOff (h : Valid z v (.test ::ₘ R)) (hl : v.flags.lru = false) :
    Valid z { v with off := false } (.gone ::ₘ R) := by
  obtain ⟨hc, hu, hcached, hw, hrot, hfree, hr, hdy, hcust⟩ := h.unreferenced rfl rfl
  have hfits := h.fits
  have hhome : v.home = none := by
    match hh : v.home with
    | none => rfl
    | some (.lru _ _) =>
      rw [hh] at hfits
      rw [hfits.1] at hl
      cases hl
    | some (.pvec _ _) =>
      rw [hh] at hw
      cases hw
  rw [hhome] at hcust
  have hoff : v.off = true := by
    rw [← Bool.toNat_eq_one]
    exact hcust
  refine of_unreferenced ?_ hfree rfl rfl h.fits (fun ho => absurd ho (by simp))
    (knows_cons h.knows_tail (h.clean (.inr hoff)))
  rw [hcached, hhome]
  exact ⟨hc, hu, rfl, rfl, hrot, hr, hdy, rfl⟩

/-- A page that is about to be freed is taken off its list. -/
theorem delete (h : Valid z v (.del ::ₘ R)) {f' : LruFlags} (hf : f'.Clean) :
    Valid z { v with flags := f', home := (none : Option (Place C)) } (.gone ::ₘ R) := by
  obtain ⟨hc, hu, hcached, hw, hrot, hfree, hr, hdy, hcust⟩ := h.unreferenced rfl rfl
  obtain ⟨l, hhome, -⟩ := h.listed h.knows_head
  obtain ⟨hcust', -, hoff⟩ := h.custody_eq_zero (by rw [hhome]; rfl)
  rw [custody_cons] at hcust'
  refine of_unreferenced ?_ hfree rfl rfl hf.1 (fun ho => absurd ho (by simp [hoff]))
    (knows_cons (knows_congr h.knows_tail (by omega) (.inl hdy)) hf)
  rw [hcached, hoff]
  exact ⟨hc, hu, rfl, rfl, hrot, hr, hdy, rfl⟩

/-- The page that a thread was about to free is free. -/
theorem free_of_gone (h : Valid z v (.gone ::ₘ R)) {f' : LruFlags} (hf : f'.Clean) :
    Valid z { v with flags := f', free := true } R := by
  obtain ⟨hc, hu, hcached, hw, hrot, hfree, hr, hdy, hcust⟩ := h.unreferenced rfl rfl
  obtain ⟨hhome, -, hoff, hcust⟩ := h.home_eq_none rfl
  obtain ⟨hf₁, -, -⟩ := frozen_le R
  refine ⟨?_, fun hne => absurd hc hne, fun _ => ?_, ?_, fun hfr => ?_, ?_, fun _ => hf,
    knows_congr h.knows_tail hcust (.inl hdy)⟩
  · rw [hhome, hcached]
    simp only [waiting, Bool.toNat_false]
    omega
  · rw [hdy]
    rfl
  · rw [hhome, hoff, hcust]
    rfl
  · omega
  · rw [hhome]
    exact hf.1

/-! ### Places -/

/-- A page in the custody of a thread is put on a list. -/
theorem place (h : Valid z v (.held know ::ₘ R)) {f' : LruFlags} {l : ℕ} (hl : f'.lru = true)
    (hon : f'.OnList l) :
    Valid z { v with flags := f', home := (some (.lru z l) : Option (Place C)) } (.ref ::ₘ R) := by
  obtain ⟨hpos, hfree, -, hd, hcount, hcust⟩ := h.in_use (h.count_ne_zero_of_isRef rfl rfl)
  obtain ⟨hhome, -, hoff, hcust'⟩ := h.home_eq_none rfl
  rw [hhome] at hcount
  simp only [refs_cons, dying_cons, waiting, Claim.isRef, Claim.isDying, Bool.toNat_true,
    Bool.toNat_false] at hd hcount
  refine of_in_use ?_ hfree ⟨hl, rfl, hon⟩ (fun ho => absurd ho (by simp [hoff]))
    (knows_cons (knows_congr h.knows_tail hcust' (.inr (.inr hl))) trivial)
  simp only [refs_cons, dying_cons, custody_cons, waiting, hoff, hcust', Option.isSome_some, Claim.isRef,
    Claim.isDying, Claim.isCustody, Bool.toNat_true, Bool.toNat_false, and_true]
  omega

/-- A page in the custody of a thread is put in a pagevec, which gets a reference. -/
theorem wait (h : Valid z v (.held know ::ₘ R)) {f' : LruFlags} {l : ℕ} (c : C) (hf : f'.Awaits l) :
    Valid z { v with count := v.count + 1, flags := f', home := some (.pvec c l) } (.ref ::ₘ R) := by
  obtain ⟨hpos, hfree, -, hd, hcount, hcust⟩ := h.in_use (h.count_ne_zero_of_isRef rfl rfl)
  obtain ⟨hhome, -, hoff, hcust'⟩ := h.home_eq_none rfl
  rw [hhome] at hcount
  simp only [refs_cons, dying_cons, waiting, Claim.isRef, Claim.isDying, Bool.toNat_true,
    Bool.toNat_false] at hd hcount
  refine of_in_use ?_ hfree hf (fun ho => absurd ho (by simp [hoff]))
    (knows_cons (knows_congr h.knows_tail hcust' (.inl (by omega))) trivial)
  simp only [refs_cons, dying_cons, custody_cons, waiting, hoff, hcust', Option.isSome_some, Claim.isRef,
    Claim.isDying, Claim.isCustody, Bool.toNat_true, Bool.toNat_false, and_true]
  omega

/-- The pages of a pagevec are taken by a thread. -/
theorem unwait (h : Valid z v R) {c : C} {l : ℕ} (hh : v.home = some (.pvec c l)) :
    Valid z { v with home := (none : Option (Place C)) } (.held (fun _ f => f.Awaits l) ::ₘ R) := by
  have hfits := h.fits
  rw [hh] at hfits
  have hne : v.count ≠ 0 := by
    intro hc
    have hdead := h.dead hc
    have hcount := h.count_eq
    have hle := frozen_le R
    rw [hh, waiting] at hcount
    rcases Nat.eq_zero_or_pos (frozen R) with hz | hz
    · omega
    · rw [h.cached_of_frozen hz, Bool.toNat_true] at hcount
      omega
  obtain ⟨hpos, hfree, -, hd, hcount, hcust⟩ := h.in_use hne
  obtain ⟨hcust', -, hoff⟩ := h.custody_eq_zero (by rw [hh]; rfl)
  rw [hh, waiting] at hcount
  refine of_in_use ?_ hfree hfits.1.1 (fun ho => absurd ho (by simp [hoff]))
    (knows_cons h.knows hfits)
  simp only [refs_cons, dying_cons, custody_cons, waiting, hoff, hcust', Option.isSome_none, Claim.isRef,
    Claim.isDying, Claim.isCustody, Bool.toNat_true, Bool.toNat_false, and_true]
  omega

/-- `get_page_unless_zero` of a page on a list, which is taken off. -/
theorem take (h : Valid z v R) {z' : ZoneRef} {l : ℕ} (hh : v.home = some (.lru z' l))
    (hc : v.count ≠ 0) {f' : LruFlags} (hl : f'.lru = false) (hk : know z f') :
    Valid z { v with count := v.count + 1, flags := f', home := (none : Option (Place C)) }
      (.held know ::ₘ R) := by
  obtain ⟨hpos, hfree, -, hd, hcount, hcust⟩ := h.in_use hc
  obtain ⟨hcust', -, hoff⟩ := h.custody_eq_zero (by rw [hh]; rfl)
  rw [hh, waiting] at hcount
  refine of_in_use ?_ hfree hl (fun ho => absurd ho (by simp [hoff]))
    (knows_cons (knows_congr h.knows hcust' (.inl hd)) hk)
  simp only [refs_cons, dying_cons, custody_cons, waiting, hoff, hcust', Option.isSome_none, Claim.isRef,
    Claim.isDying, Claim.isCustody, Bool.toNat_true, Bool.toNat_false, and_true]
  omega

/-- A page is moved from a list to another one. -/
theorem move (h : Valid z v R) (hl : v.flags.lru = true) {f' : LruFlags} {l : ℕ} (hl' : f'.lru = true)
    (hon : f'.OnList l) :
    Valid z { v with flags := f', home := (some (.lru z l) : Option (Place C)) } R := by
  obtain ⟨k, hh, -⟩ := h.listed hl
  obtain ⟨hcust', -, hoff⟩ := h.custody_eq_zero (by rw [hh]; rfl)
  have hcount := h.count_eq
  have hcust := h.custody_eq
  rw [hh] at hcount hcust
  exact
    { count_eq := hcount
      alive := h.alive
      dead := h.dead
      custody_eq := hcust
      cached_of_frozen := h.cached_of_frozen
      fits := ⟨hl', rfl, hon⟩
      clean := fun ho => by
        have := h.clean ho
        rw [this.1] at hl
        cases hl
      knows := knows_congr h.knows hcust' (.inr (.inr hl')) }

/-! ### Custody -/

/-- The thread that has the custody of a page changes its flags. -/
theorem alter (h : Valid z v (.held know ::ₘ R)) {f' : LruFlags} (hl : f'.lru = false)
    (hk : know' z f') : Valid z { v with flags := f' } (.held know' ::ₘ R) := by
  obtain ⟨hpos, hfree, -, hd, hcount, hcust⟩ := h.in_use (h.count_ne_zero_of_isRef rfl rfl)
  obtain ⟨hhome, -, hoff, hcust'⟩ := h.home_eq_none rfl
  simp only [refs_cons, dying_cons, custody_cons, Claim.isRef, Claim.isDying, Claim.isCustody,
    Bool.toNat_true, Bool.toNat_false] at hd hcount hcust
  refine of_in_use ?_ hfree (by rw [hhome]; exact hl) (fun ho => absurd ho (by simp [hoff]))
    (knows_cons (knows_congr h.knows_tail hcust' (.inl (by omega))) hk)
  simp only [refs_cons, dying_cons, custody_cons, Claim.isRef, Claim.isDying, Claim.isCustody,
    Bool.toNat_true, Bool.toNat_false]
  omega

/-- The same, when a list of pages is in the custody of the thread and the page is in it `n` times. -/
theorem alterEach {n : ℕ} (h : Valid z v (n • {.held know} + R)) {f' : LruFlags}
    (hout : n = 0 → f' = v.flags) (hin : n ≠ 0 → know z v.flags → f'.lru = false ∧ know' z f') :
    Valid z { v with flags := f' } (n • {.held know'} + R) := by
  have hcust := h.custody_eq
  rw [custody_add, custody_nsmul, custody_singleton, Claim.isCustody, Bool.toNat_true] at hcust
  rcases Nat.eq_zero_or_pos n with rfl | hpos
  · rw [zero_nsmul] at h ⊢
    rw [hout rfl]
    exact h
  · have hn : n = 1 := by omega
    rw [hn, one_nsmul, Multiset.singleton_add] at h ⊢
    obtain ⟨hl, hk⟩ := hin hpos.ne' h.knows_head
    exact h.alter hl hk

/-- `page_freeze_refs`. -/
theorem freeze (h : Valid z v (.held know ::ₘ R)) (hc : v.count = 2) (hcached : v.cached = true) :
    Valid z { v with count := v.count + -2 } (.frozen know ::ₘ R) := by
  obtain ⟨hpos, hfree, hfr, hd, hcount, hcust⟩ := h.in_use (h.count_ne_zero_of_isRef rfl rfl)
  obtain ⟨hhome, -, hoff, hcust'⟩ := h.home_eq_none rfl
  rw [hcached] at hcount
  simp only [refs_cons, frozen_cons, dying_cons, custody_cons, Claim.isRef, Claim.isFrozen, Claim.isDying,
    Claim.isCustody, Bool.toNat_true, Bool.toNat_false] at hfr hd hcount hcust
  refine ⟨?_, fun hne => ?_, fun _ => ?_, ?_, fun _ => hcached, h.fits, fun ho => h.clean ho,
    knows_cons h.knows_tail h.knows_head⟩
  · simp only [refs_cons, frozen_cons, hcached, Claim.isRef, Claim.isFrozen, Bool.toNat_true]
    omega
  · simp only at hne
    omega
  · simp only [hfree, dying_cons, Claim.isDying, Bool.toNat_true, Bool.toNat_false]
    omega
  · simp only [hfree, custody_cons, Claim.isCustody, Bool.toNat_true, Bool.toNat_false]
    omega

/-- A page whose references are frozen has one of the page cache, and one of the thread. -/
theorem of_frozen (h : Valid z v (.frozen know ::ₘ R)) :
    v.count = 0 ∧ v.cached = true ∧ v.users = 0 ∧ waiting v.home = 0 ∧ v.rotating = 0 ∧ refs R = 0 ∧
      dying R = 0 ∧ frozen R = 0 ∧ v.free = false := by
  have hc : v.count = 0 := by
    by_contra hc
    have := h.alive hc
    rw [dying_cons, Claim.isDying, Bool.toNat_true] at this
    omega
  have hdead := h.dead hc
  have hcount := h.count_eq
  have hle := (frozen_le R).2.1
  have hcached := h.cached_of_frozen (by
    rw [frozen_cons, Claim.isFrozen, Bool.toNat_true]
    omega)
  rw [hcached] at hcount
  simp only [refs_cons, frozen_cons, dying_cons, Claim.isRef, Claim.isFrozen, Claim.isDying,
    Bool.toNat_true] at hdead hcount
  refine ⟨hc, hcached, by omega, by omega, by omega, by omega, by omega, by omega, ?_⟩
  rw [← Bool.toNat_eq_zero]
  omega

/-- `page_unfreeze_refs`. -/
theorem unfreeze (h : Valid z v (.frozen know ::ₘ R)) :
    Valid z { v with count := v.count + 2 } (.held know ::ₘ R) := by
  obtain ⟨hc, hcached, hu, hw, hrot, hr, hd, hfr, hfree⟩ := h.of_frozen
  obtain ⟨hhome, -, hoff, hcust⟩ := h.home_eq_none rfl
  refine of_in_use ?_ hfree h.fits (fun ho => absurd ho (by simp [hoff]))
    (knows_cons h.knows_tail h.knows_head)
  simp only [refs_cons, dying_cons, custody_cons, hcached, hhome, hoff, waiting, Option.isSome_none,
    Claim.isRef, Claim.isDying, Claim.isCustody, Bool.toNat_true, Bool.toNat_false]
  omega

/-- A page whose references are frozen is removed from the page cache. -/
theorem remove (h : Valid z v (.frozen know ::ₘ R)) (hk : v.flags.Clean) :
    Valid z { v with cached := false } (.gone ::ₘ R) := by
  obtain ⟨hc, hcached, hu, hw, hrot, hr, hd, hfr, hfree⟩ := h.of_frozen
  obtain ⟨hhome, -, hoff, hcust⟩ := h.home_eq_none rfl
  refine of_unreferenced ?_ hfree rfl rfl h.fits (fun ho => absurd ho (by simp [hoff]))
    (knows_cons h.knows_tail hk)
  rw [hhome, hoff]
  exact ⟨hc, hu, rfl, rfl, hrot, hr, hd, rfl⟩

/-- The thread that has the custody of a page drops its reference, and frees the page if it was the
    last one. -/
theorem drop (h : Valid z v (.held know ::ₘ R)) (hk : v.flags.Clean) :
    if v.count + -1 = 0 then Valid z { v with count := v.count + -1 } (.gone ::ₘ R)
    else Valid z { v with count := v.count + -1, off := true } R := by
  obtain ⟨hpos, hfree, -, hd, hcount, hcust⟩ := h.in_use (h.count_ne_zero_of_isRef rfl rfl)
  obtain ⟨hhome, -, hoff, hcust'⟩ := h.home_eq_none rfl
  have hle := (frozen_le R).2.2
  simp only [refs_cons, dying_cons, hhome, waiting, Claim.isRef, Claim.isDying, Bool.toNat_true,
    Bool.toNat_false] at hd hcount
  split_ifs with hz
  · refine of_unreferenced ?_ hfree rfl rfl h.fits (fun ho => absurd ho (by simp [hoff]))
      (knows_cons h.knows_tail hk)
    simp only [hhome, hoff, waiting, Option.isSome_none, Claim.isCustody, Bool.toNat_true,
      Bool.toNat_false, true_and, and_true]
    omega
  · refine of_in_use ?_ hfree h.fits (fun _ => hk) h.knows_tail
    simp only [hhome, hcust', waiting, Option.isSome_none, Bool.toNat_true, Bool.toNat_false, and_true]
    omega

/-! ### Users -/

/-- A user gets another reference. -/
theorem getUser (h : Valid z v R) (hc : v.count ≠ 0) :
    Valid z { v with count := v.count + 1, users := v.users + 1 } R := by
  obtain ⟨hpos, hfree, -, hd, hcount, hcust⟩ := h.in_use hc
  exact of_in_use (by omega) hfree h.fits (fun ho => h.clean (.inr ho)) h.knows

/-- A page is allocated. -/
theorem alloc (h : Valid z v R) (hfree : v.free = true) :
    Valid z { v with count := v.count + 1, free := false, off := true, users := 1 } R := by
  obtain ⟨hc, -, hcached, hhome, hrot, hr, hd, hcust⟩ := h.unused hfree
  refine of_in_use ?_ rfl h.fits (fun _ => h.clean (.inl hfree)) h.knows
  rw [hc, hcached, hhome, hrot, hr, hd, hcust]
  simp [waiting]

/-- A page that a user has is added to the page cache. -/
theorem cache (h : Valid z v R) (hu : 0 < v.users) (hcached : v.cached = false) :
    Valid z { v with count := v.count + 1, cached := true } R := by
  have hle := frozen_le R
  obtain ⟨hpos, hfree, -, hd, hcount, hcust⟩ := h.in_use (h.count_ne_zero (by omega))
  refine of_in_use ?_ hfree h.fits (fun ho => h.clean (.inr ho)) h.knows
  simp only [hcached, Bool.toNat_true, Bool.toNat_false] at hcount ⊢
  omega

/-- The reference of the page cache is taken by a thread. -/
theorem uncache (h : Valid z v R) (hu : 0 < v.users) (hcached : v.cached = true) :
    Valid z { v with cached := false } (.ref ::ₘ R) := by
  have hle := frozen_le R
  obtain ⟨hpos, hfree, -, hd, hcount, hcust⟩ := h.in_use (h.count_ne_zero (by omega))
  refine of_in_use ?_ hfree h.fits (fun ho => h.clean (.inr ho)) (knows_cons h.knows trivial)
  simp only [hcached, refs_cons, dying_cons, custody_cons, Claim.isRef, Claim.isDying, Claim.isCustody,
    Bool.toNat_true, Bool.toNat_false] at hcount ⊢
  omega

/-- A user has a page put on the LRU lists that is off. -/
theorem adopt (h : Valid z v R) (hu : 0 < v.users) (hoff : v.off = true) {l : ℕ}
    (hfile : isFileLru l = v.flags.file) (hl : l < lruUnevictable) :
    Valid z { v with users := v.users - 1, off := false } (.held (fun _ f => f.Awaits l) ::ₘ R) := by
  have hle := frozen_le R
  obtain ⟨hpos, hfree, -, hd, hcount, hcust⟩ := h.in_use (h.count_ne_zero (by omega))
  refine of_in_use ?_ hfree h.fits (fun ho => absurd ho (by simp))
    (knows_cons h.knows ⟨h.clean (.inr hoff), hfile.symm, hl⟩)
  simp only [hoff, refs_cons, dying_cons, custody_cons, Claim.isRef, Claim.isDying, Claim.isCustody,
    Bool.toNat_true, Bool.toNat_false] at hcust ⊢
  omega

/-- The flags of a page that is off change. -/
theorem setOffFlags (h : Valid z v R) (hoff : v.off = true) {f' : LruFlags} (hf : f'.Clean) :
    Valid z { v with flags := f' } R := by
  have hclean := h.clean (.inr hoff)
  have hcust := h.custody_eq
  rw [hoff, Bool.toNat_true] at hcust
  have hhome : v.home = none := by
    have : v.home.isSome = false := by
      rw [← Bool.toNat_eq_zero]
      omega
    simpa using this
  exact
    { count_eq := h.count_eq
      alive := h.alive
      dead := h.dead
      custody_eq := h.custody_eq
      cached_of_frozen := h.cached_of_frozen
      fits := by
        simp only [hhome]
        exact hf.1
      clean := fun _ => hf
      knows := knows_congr h.knows (by omega) (.inr (.inl (hf.1.trans hclean.1.symm))) }

end Valid

end Mcpq.Kernel.LruCache
