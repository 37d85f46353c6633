import Mcpq.Kernel.LruCache.Steps

/-!
# The runs of the LRU lists

Whatever is called, and in whatever order the threads take their steps, the claims of the threads remain
valid (`inv_of_reachable`). So `_count` is the number of the references to a page, and a page that has
been freed is found nowhere (`references_counted`); the flags of a page say which list it is on
(`page_whereabouts`); and no assertion fails (`exec_ok_iff`). The second part of `__hate_page` does not
test `PG_lru` again, and is the only instruction that can fail.

These are the runs in which no `_count` wraps around (`CountsFit`), and no page is put on the unevictable
list with `PG_active` (`Inactive`). Such a page has been put back by another thread, and activated, while
`putback_lru_page` was about to look at it again.
-/

namespace Mcpq.Kernel.LruCache

variable {C : Type*} [DecidableEq C] [Fintype C]

/-- A page is put on the unevictable list that is active. -/
def Instr.putsActive (s : Cache C) : Instr C → Bool
  | .addPageToUnevictableList p _ => (s.page p).testBit .active
  | _ => false

/-- A page that is put on the unevictable list is not active. -/
abbrev Inactive (s : Cache C) (i : Instr C) : Prop := i.putsActive s = false

/-- An `int` holds the `_count` of each page, also after the next step, which takes one more reference to
    a page at most. -/
def CountsFit (s : Cache C) : Prop := ∀ p, (s.page p).count < 2 ^ 31 - 1

/-- The steps of the runs considered. -/
def Regular (P : Pool (Cache C) (Instr C)) (a : Pool.Label Call (Choice C)) : Prop :=
  Pool.Executes Inactive P a ∧ CountsFit P.shared

/-- The second part of `__hate_page` finds the page on its list. -/
def FindsPage (s : Cache C) : Instr C → Prop
  | .hatePageLocked p => (s.page p).testBit .lru = true
  | _ => True

variable {m : Machine} {ch : Choice C} {s s' : Cache C} {i : Instr C} {p : PageRef}
  {R : PageRef → Multiset Claim}

/-! ## Instructions -/

theorem exec_keeps (h : Inv m s (i.claims + R)) (hi : Inactive s i) (hf : FindsPage s i) :
    Keeps m ch s i R := by
  cases i with
  | putPage p => exact keeps_putPage h
  | pageCacheRelease p => exact keeps_pageCacheRelease h
  | pageCacheReleaseLocked p => exact keeps_pageCacheReleaseLocked h
  | freePages ps => exact keeps_freePages h
  | releasePages todo toFree => exact keeps_releasePages h
  | releaseLru p todo toFree => exact keeps_releaseLru h
  | releaseLocked p todo toFree => exact keeps_releaseLocked h
  | lruCacheAddLru p lru caller => exact keeps_lruCacheAddLru h
  | pagevecLruAdd todo done lru => exact keeps_pagevecLruAdd h
  | lruAddDrain => exact keeps_lruAddDrain h
  | drainAdd cpu lru => exact keeps_drainAdd h
  | drainRotate cpu => exact keeps_drainRotate h
  | pagevecMoveTail todo done => exact keeps_pagevecMoveTail h
  | rotateReclaimablePage p => exact keeps_rotateReclaimablePage h
  | activatePage p => exact keeps_activatePage h
  | isolateLruPage p after => exact keeps_isolateLruPage h
  | isolateLruPageLocked p after => exact keeps_isolateLruPageLocked h
  | returnRef p => exact keeps_returnRef h
  | putbackLruPage p => exact keeps_putbackLruPage h
  | putbackRedo p active => exact keeps_putbackRedo h
  | addPageToUnevictableList p active => exact keeps_addPageToUnevictableList h hi
  | putbackRecheck p active => exact keeps_putbackRecheck h
  | isolatePages z nr active file dst => exact keeps_isolatePages h
  | updateIsolatedCounts z pages => exact keeps_updateIsolatedCounts h
  | shrinkPageList z todo ret toFree => exact keeps_shrinkPageList h
  | releaseBuffers z p todo ret toFree => exact keeps_releaseBuffers h
  | removeMapping z p todo ret toFree => exact keeps_removeMapping h
  | putbackLruPages z todo pvec => exact keeps_putbackLruPages h
  | shrinkActiveList z file hold active inactive => exact keeps_shrinkActiveList h
  | moveActivePagesToLru z list lru pvec => exact keeps_moveActivePagesToLru h
  | hatePage p => exact keeps_hatePage h
  | hatePageLocked p => exact keeps_hatePageLocked h hf
  | checkMoveUnevictablePage p => exact keeps_checkMoveUnevictablePage h

/-- The page is on no list of its zone any more. -/
theorem hatePageLocked_error (h : Inv m s R) (hl : (s.page p).testBit .lru = false) :
    exec m ch s (.hatePageLocked p) = .error .corruptList := by
  obtain ⟨home, hm, hv⟩ := h
  have hoff : s.onLru p (m.zone p) = false := by
    rw [Cache.onLru, List.any_eq_false]
    intro l _ hmem
    have hfits := (hv p).fits
    rw [Cache.view, (hm.mem_iff _ _).1 (of_decide_eq_true hmem)] at hfits
    exact absurd (hl.symm.trans hfits.1) (by simp)
  simp only [exec, Cache.delPageFromLru, Cache.listDel, hoff]
  rfl

theorem findsPage_of_ok {r : Cache C × List (Instr C)} (h : Inv m s R) (he : exec m ch s i = .ok r) :
    FindsPage s i := by
  cases i with
  | hatePageLocked p =>
    by_contra hl
    rw [hatePageLocked_error h (by simpa [FindsPage] using hl)] at he
    cases he
  | _ => trivial

/-! ## Calls -/

omit [DecidableEq C] in
/-- A user gives its reference to the function that it calls. -/
theorem borrow_keeps {prog : List (Instr C)} {r : Cache C × List (Instr C)} (h : Inv m s R)
    (hc : borrow s p prog = some r) : r.2 = prog ∧ Inv m r.1 (one p .ref + R) := by
  rw [borrow] at hc
  split_ifs at hc with hu
  obtain rfl := Option.some.inj hc
  obtain ⟨home, hm, hv⟩ := h
  refine ⟨rfl, .start hv (.setUsers hm _) fun hp => ?_⟩
  have := hp.lend (n := 1) hu
  rwa [one_nsmul, Multiset.singleton_add] at this

omit [DecidableEq C] in
/-- A user has a page put on the LRU lists. -/
theorem lruCacheAddLru_keeps {l : ℕ} {prog : List (Instr C)} {r : Cache C × List (Instr C)}
    (h : Inv m s R) (hc : borrow (s.setOff p false) p prog = some r) (hoff : s.off p = true)
    (hl : l < lruUnevictable) (hfile : isFileLru l = (s.page p).isFileCache) :
    r.2 = prog ∧ Inv m r.1 (one p (.held (adds l)) + R) := by
  rw [borrow] at hc
  split_ifs at hc with hu
  obtain rfl := Option.some.inj hc
  obtain ⟨home, hm, hv⟩ := h
  have ha := Alters.setOff (p := p) hm false
  have hinv : Inv m ((s.setOff p false).setUsers p ((s.setOff p false).users p - 1))
      (one p (.held (awaits l)) + R) :=
    .start hv (ha.trans (.setUsers ha.members _)) fun hp => hp.adopt hu hoff hfile hl
  exact ⟨rfl, hinv.forgetOne fun z f hk => ⟨hk.1.1, hk.1.1, .inl hk.1.2.1, hk.2⟩⟩

omit [DecidableEq C] in
theorem call_keeps {a : Call} {prog : List (Instr C)} (h : Inv m s R)
    (hc : call a s = some (s', prog)) : Inv m s' ((prog.map Instr.claims).sum + R) := by
  cases a with
  | prepNewPage p =>
    rw [call] at hc
    split_ifs at hc with hfree
    obtain ⟨rfl, rfl⟩ := Prod.mk.inj (Option.some.inj hc)
    obtain ⟨home, hm, hv⟩ := h
    have ha := Alters.addCount (p := p) hm 1
    have ha := ha.trans (.setFree ha.members false)
    have ha := ha.trans (.setOff ha.members true)
    rw [List.map_nil, List.sum_nil, zero_add]
    exact .same hv (ha.trans (.setUsers ha.members 1)) fun hp => hp.alloc hfree
  | getPageUnlessZero p =>
    rw [call] at hc
    split_ifs at hc with hcount
    obtain ⟨rfl, rfl⟩ := Prod.mk.inj (Option.some.inj hc)
    obtain ⟨home, hm, hv⟩ := h
    have ha := Alters.addCount (p := p) hm 1
    rw [List.map_nil, List.sum_nil, zero_add]
    exact .same hv (ha.trans (.setUsers ha.members _)) fun hp => hp.getUser hcount
  | addToPageCache p =>
    rw [call] at hc
    split_ifs at hc with hp
    obtain ⟨rfl, rfl⟩ := Prod.mk.inj (Option.some.inj hc)
    obtain ⟨home, hm, hv⟩ := h
    have ha := Alters.addCount (p := p) hm 1
    rw [List.map_nil, List.sum_nil, zero_add]
    exact .same hv (ha.trans (.setCached ha.members true)) fun hv => hv.cache hp.1 hp.2
  | modifyPage p x =>
    rw [call] at hc
    split_ifs at hc with hx
    obtain ⟨rfl, rfl⟩ := Prod.mk.inj (Option.some.inj hc)
    obtain ⟨home, hm, hv⟩ := h
    rw [List.map_nil, List.sum_nil, zero_add]
    refine .same hv (.modifyPage (p := p) hm fun _ => x) fun hp => ?_
    rw [hx.1, hx.2]
    exact hp
  | setPageSwapBacked p b =>
    by_cases hoff : s.off p = true
    swap
    · rw [call, if_neg hoff] at hc
      cases hc
    rw [call, if_pos hoff] at hc
    obtain ⟨rfl, rfl⟩ := Prod.mk.inj (Option.some.inj hc)
    obtain ⟨home, hm, hv⟩ := h
    rw [List.map_nil, List.sum_nil, zero_add]
    refine .same hv (.modifyPage (p := p) hm _) fun hp => ?_
    obtain ⟨hl, ha, hu⟩ := hp.clean (.inr hoff)
    cases b
    · exact hp.setOffFlags hoff ⟨hl, ha, hu⟩
    · exact hp.setOffFlags hoff ⟨hl, ha, hu⟩
  | putPage p | rotateReclaimablePage p | activatePage p | isolateLruPage p =>
    obtain ⟨rfl, hinv⟩ := borrow_keeps h hc
    rw [List.map_singleton, List.sum_singleton]
    exact hinv
  | removeFromPageCache p =>
    rw [call] at hc
    split_ifs at hc with hp
    obtain ⟨rfl, rfl⟩ := Prod.mk.inj (Option.some.inj hc)
    obtain ⟨home, hm, hv⟩ := h
    rw [List.map_singleton, List.sum_singleton]
    exact .start hv (.setCached hm false) fun hv => hv.uncache hp.1 hp.2
  | releasePages ps =>
    rw [call] at hc
    split_ifs at hc with hps
    obtain ⟨rfl, rfl⟩ := Prod.mk.inj (Option.some.inj hc)
    obtain ⟨home, hm, hv⟩ := h
    rw [List.map_singleton, List.sum_singleton, Instr.claims, each_nil, add_zero]
    refine ⟨home, hm, fun q => (hv q).lend ?_⟩
    by_cases hq : q ∈ ps
    · exact hps q hq
    · rw [List.count_eq_zero_of_not_mem hq]
      exact Nat.zero_le _
  | lruCacheAddLru p lru =>
    rw [call] at hc
    split_ifs at hc with hp
    obtain ⟨rfl, hinv⟩ := lruCacheAddLru_keeps h hc hp.1 hp.2.1 hp.2.2
    rw [List.map_singleton, List.sum_singleton]
    exact hinv
  | lruAddDrain | shrinkInactiveList z nr file | shrinkActiveList z nr file | hatePage p
  | checkMoveUnevictablePage p =>
    obtain ⟨rfl, rfl⟩ := Prod.mk.inj (Option.some.inj hc)
    simpa [Instr.claims] using h

/-! ## Runs -/

variable {P : Pool (Cache C) (Instr C)}

omit [DecidableEq C] in
theorem inv_empty (m : Machine) : Inv m (Cache.empty : Cache C) 0 := by
  refine ⟨fun _ => none, .empty, fun p => ?_⟩
  refine ⟨?_, fun h => absurd rfl h, fun _ => rfl, rfl, fun h => absurd h (by simp), rfl,
    fun _ => ⟨rfl, rfl, rfl⟩, by simp⟩
  simp [Cache.view, Cache.empty, waiting]

/-- What the threads claim of a page. -/
def claimed (P : Pool (Cache C) (Instr C)) (p : PageRef) : Multiset Claim :=
  Pool.claims Instr.claims P.threads p

theorem inv_of_reachable (hP : (lruCache C m).ReachableBy Regular P) :
    Inv m P.shared (claimed P) := by
  refine Pool.invariant (I := Inv m) ?_ ?_ ?_ (hP.mono fun _ _ h => h.1)
  · rintro s rfl
    exact inv_empty m
  · intro a s s' prog R h hc
    exact call_keeps h hc
  · intro ch s i s' is R h hi he
    obtain ⟨r, hr, hinv⟩ := exec_keeps h hi (findsPage_of_ok h he)
    rw [he] at hr
    obtain rfl := Except.ok.inj hr
    exact hinv

/-- A page of a zone is put on its list, is found there by `__hate_page`, and is isolated. -/
def hateRace : List (Pool.Label Call (Choice Unit)) :=
  [.call (.prepNewPage 0), .call (.lruCacheAddLru 0 lruInactiveFile)] ++
    List.replicate 7 (.run 1 { cpu := () }) ++
      [.call (.hatePage 0), .run 2 { cpu := () }, .call (.isolateLruPage 0), .run 3 { cpu := () },
        .run 3 { cpu := () }]

/-- One zone, and pagevecs of one page. -/
def oneZone : Machine := ⟨fun _ => 0, 1⟩

/-- The first steps of `hateRace`. -/
def afterHateRace (n : ℕ) : Option (Pool (Cache Unit) (Instr Unit)) :=
  (hateRace.take n).foldlM (Pool.next call (exec oneZone) Inactive) ⟨Cache.empty, []⟩

/-- On the way at most three references to the page are held, and none to another. -/
theorem countsFit_hateRace {n : ℕ} {P : Pool (Cache Unit) (Instr Unit)} (hP : afterHateRace n = some P) :
    CountsFit P.shared := by
  have hcount : ∀ k ≤ 14, ∀ p, (afterHateRace k).all fun P => decide ((P.shared.page p).count ≤ 3) := by
    rintro k hk (_ | p) <;> interval_cases k <;> rfl
  have hle : ∀ p, (P.shared.page p).count ≤ 3 := fun p => by
    rcases le_total n 14 with hn | hn
    · have h := hcount n hn p
      rw [hP] at h
      exact of_decide_eq_true h
    · have h := hcount 14 le_rfl p
      have htake : hateRace.take n = hateRace.take 14 := by
        rw [List.take_of_length_le hn]
        rfl
      rw [afterHateRace, ← htake, ← afterHateRace, hP] at h
      exact of_decide_eq_true h
  exact fun p => (hle p).trans_lt (by norm_num)

theorem reachable_hateRace {n : ℕ} {P : Pool (Cache Unit) (Instr Unit)}
    (hP : afterHateRace n = some P) : (lruCache Unit oneZone).ReachableBy Regular P := by
  refine Pool.reachableBy_of_foldlM hP (fun k P₁ hP₁ => ?_) (.init ⟨rfl, rfl⟩)
  rw [List.take_take] at hP₁
  exact countsFit_hateRace hP₁

/-- The page has been isolated after `__hate_page` has found it on its list. -/
theorem exists_hateRace : ∃ P : Pool (Cache Unit) (Instr Unit),
    (lruCache Unit oneZone).ReachableBy Regular P ∧
      P.threads[2]? = some [.hatePageLocked 0] ∧ (P.shared.page 0).testBit .lru = false ∧
        (P.shared.page 0).count = 2 := by
  have hsome : (afterHateRace 14).isSome = true := rfl
  exact ⟨(afterHateRace 14).get hsome, reachable_hateRace (Option.some_get hsome).symm, rfl, rfl, rfl⟩

/-- The page is on its list. -/
theorem exists_listed : ∃ P : Pool (Cache Unit) (Instr Unit),
    (lruCache Unit oneZone).ReachableBy Regular P ∧
      P.shared.list (.lru 0 lruInactiveFile) = [0] := by
  have hsome : (afterHateRace 11).isSome = true := rfl
  exact ⟨(afterHateRace 11).get hsome, reachable_hateRace (Option.some_get hsome).symm, rfl⟩

/-- An instruction fails if and only if it is the second part of `__hate_page`, and the page has been
    taken off its list after the first. -/
theorem exec_ok_iff (hP : (lruCache C m).ReachableBy Regular P) {k : List (Instr C)}
    (hmem : i :: k ∈ P.threads) (hi : Inactive P.shared i) (ch : Choice C) :
    (∃ r, exec m ch P.shared i = .ok r) ↔ FindsPage P.shared i := by
  have h := inv_of_reachable hP
  constructor
  · rintro ⟨r, hr⟩
    exact findsPage_of_ok h hr
  · intro hf
    obtain ⟨R, hR⟩ := Pool.claims_of_mem (f := Instr.claims) hmem
    have h : Inv m P.shared (i.claims + R) := hR ▸ h
    obtain ⟨r, hr, -⟩ := exec_keeps h hi hf
    exact ⟨r, hr⟩

/-- In the race of `__hate_page` with the isolation of the page, a page is deleted from a list that it is
    not on. -/
theorem not_exec_ok_hateRace : ∃ P : Pool (Cache Unit) (Instr Unit),
    P.threads[2]? = some [.hatePageLocked 0] ∧
      ¬∃ r, exec oneZone { cpu := () } P.shared (.hatePageLocked 0) = .ok r := by
  obtain ⟨P, hP, hthread, hl, -⟩ := exists_hateRace
  have hiff := exec_ok_iff hP (List.mem_of_getElem? hthread) rfl { cpu := () }
  refine ⟨P, hthread, fun hok => ?_⟩
  have hf : (P.shared.page 0).testBit .lru = true := hiff.1 hok
  rw [hl] at hf
  cases hf

/-! ## References -/

/-- How often the page is in the pagevecs. -/
def Cache.inPvecs (s : Cache C) (p : PageRef) : ℕ :=
  ∑ c, (∑ l ∈ Finset.range nrLruLists, (s.list (.pvec c l)).count p + (s.rotatePvec c).count p)

theorem inPvecs_eq {home : PageRef → Option (Place C)} (hm : Members home s.list)
    (hlt : ∀ c l, home p = some (.pvec c l) → l < nrLruLists) :
    s.inPvecs p = waiting (home p) + ∑ c, (s.rotatePvec c).count p := by
  rw [Cache.inPvecs, Finset.sum_add_distrib, Nat.add_right_cancel_iff]
  have hcount : ∀ c l, (s.list (.pvec c l)).count p =
      if home p = some (.pvec c l) then 1 else 0 := by
    intro c l
    rw [(hm.nodup _).count]
    exact if_congr (hm.mem_iff p _) rfl rfl
  simp only [hcount]
  match hh : home p with
  | none => simp [waiting]
  | some (.lru z l) => simp [waiting]
  | some (.pvec c l) =>
    rw [Finset.sum_eq_single c, Finset.sum_eq_single l, if_pos rfl]
    · rfl
    · intro l' _ hl
      exact if_neg fun h => hl (Place.pvec.inj (Option.some.inj h)).2.symm
    · intro hl
      exact absurd (Finset.mem_range.2 (hlt c l hh)) hl
    · intro c' _ hc
      exact Finset.sum_eq_zero fun l' _ =>
        if_neg fun h => hc (Place.pvec.inj (Option.some.inj h)).1.symm
    · intro hc
      exact absurd (Finset.mem_univ c) hc

/-- `_count` is the number of the references to a page, unless these are frozen. It is 0 if and only if
    the page is free or one thread is about to free it, or has frozen it, and a free page is found
    nowhere. -/
theorem references_counted (hP : (lruCache C m).ReachableBy Regular P) (p : PageRef) :
    (P.shared.page p).count + 2 * frozen (claimed P p) = P.shared.users p + (P.shared.cached p).toNat +
        P.shared.inPvecs p + refs (claimed P p) ∧
      ((P.shared.page p).count = 0 ↔ (P.shared.free p).toNat + dying (claimed P p) = 1) ∧
        (P.shared.free p = true → P.shared.users p = 0 ∧ P.shared.cached p = false ∧
          P.shared.inPvecs p = 0 ∧ (∀ k, p ∉ P.shared.list k) ∧ (lruFlags (P.shared.page p)).Clean ∧
            refs (claimed P p) = 0 ∧ dying (claimed P p) = 0) := by
  obtain ⟨home, hm, hv⟩ := inv_of_reachable hP
  have hp := hv p
  have hpvecs : P.shared.inPvecs p = waiting (home p) + ∑ c, (P.shared.rotatePvec c).count p := by
    refine inPvecs_eq hm fun c l hh => ?_
    have hfits := hp.fits
    rw [Cache.view, hh] at hfits
    exact hfits.2.2.trans (by decide)
  have hcount := hp.count_eq
  simp only [Cache.view] at hcount
  refine ⟨by rw [hpvecs]; push_cast at hcount ⊢; omega, ⟨hp.dead, fun hd => ?_⟩, fun hfree => ?_⟩
  · by_contra hne
    have := hp.alive hne
    simp only [Cache.view] at this
    omega
  · obtain ⟨-, hu, hcached, hhome, hrot, hr, hd, -⟩ := hp.unused hfree
    have hhome : home p = none := hhome
    refine ⟨hu, hcached, ?_, fun k hk => ?_, hp.clean (.inl hfree), hr, hd⟩
    · rw [hpvecs, hhome, waiting, zero_add]
      exact hrot
    · rw [hm.mem_iff, hhome] at hk
      cases hk

/-- While the page is isolated, and `__hate_page` runs, there are two references to it. -/
theorem references_counted_hateRace : ∃ P : Pool (Cache Unit) (Instr Unit),
    (P.shared.page 0).count = 2 ∧ (2 : ℤ) + 2 * frozen (claimed P 0) = P.shared.users 0 +
      (P.shared.cached 0).toNat + P.shared.inPvecs 0 + refs (claimed P 0) := by
  obtain ⟨P, hP, -, -, hcount⟩ := exists_hateRace
  refine ⟨P, hcount, ?_⟩
  have hrefs := (references_counted hP 0).1
  rwa [hcount] at hrefs

/-! ## Lists -/

/-- A page has `PG_lru` if and only if it is on an LRU list of its zone. It is on one list or in one of
    the `lru_add_pvecs` at most, once, and its flags are those of the list. Otherwise it is free, or off, or
    in the custody of one thread. -/
theorem page_whereabouts (hP : (lruCache C m).ReachableBy Regular P) (p : PageRef) :
    ((P.shared.page p).testBit .lru = true ↔ ∃ l, p ∈ P.shared.list (.lru (m.zone p) l)) ∧
      (∀ k, p ∈ P.shared.list k → (P.shared.list k).count p = 1 ∧
        (∀ k', p ∈ P.shared.list k' → k' = k) ∧
          (lruFlags (P.shared.page p)).Fits (m.zone p) (some k) ∧ P.shared.free p = false ∧
            P.shared.off p = false ∧ custody (claimed P p) = 0) ∧
        ((∀ k, p ∉ P.shared.list k) →
          (P.shared.free p).toNat + (P.shared.off p).toNat + custody (claimed P p) = 1) := by
  obtain ⟨home, hm, hv⟩ := inv_of_reachable hP
  have hp := hv p
  refine ⟨⟨fun hl => ?_, ?_⟩, fun k hk => ?_, fun hno => ?_⟩
  · obtain ⟨l, hhome, -⟩ := hp.listed hl
    exact ⟨l, (hm.mem_iff _ _).2 hhome⟩
  · rintro ⟨l, hl⟩
    have hfits := hp.fits
    rw [Cache.view, (hm.mem_iff _ _).1 hl] at hfits
    exact hfits.1
  · have hhome := (hm.mem_iff _ _).1 hk
    have hfits := hp.fits
    rw [Cache.view, hhome] at hfits
    obtain ⟨hcust, hfree, hoff⟩ := hp.custody_eq_zero (by rw [Cache.view, hhome]; rfl)
    exact ⟨List.count_eq_one_of_mem (hm.nodup k) hk, fun k' hk' => hm.eq_of_mem hk' hk, hfits, hfree,
      hoff, hcust⟩
  · have hcust := hp.custody_eq
    have hhome : home p = none := by
      by_contra hne
      obtain ⟨k, hk⟩ := Option.ne_none_iff_exists'.1 hne
      exact hno k ((hm.mem_iff _ _).2 hk)
    simp only [Cache.view, hhome, Option.isSome_none, Bool.toNat_false] at hcust
    omega

/-- A page that has been put on an LRU list is there, and in the custody of no thread. -/
theorem page_whereabouts_listed : ∃ P : Pool (Cache Unit) (Instr Unit),
    P.shared.list (.lru 0 lruInactiveFile) = [0] ∧ (P.shared.page 0).testBit .lru = true ∧
      custody (claimed P 0) = 0 := by
  obtain ⟨P, hP, hlist⟩ := exists_listed
  obtain ⟨hlru, hlisted, -⟩ := page_whereabouts hP 0
  have hmem : 0 ∈ P.shared.list (.lru 0 lruInactiveFile) := by
    rw [hlist]
    exact List.mem_singleton_self 0
  exact ⟨P, hlist, hlru.2 ⟨lruInactiveFile, hmem⟩, (hlisted _ hmem).2.2.2.2.2⟩

end Mcpq.Kernel.LruCache
