import Mcpq.Kernel.LruCache.Claims

/-!
# The steps of the LRU lists

Each instruction keeps the claims of the threads valid and the lists consistent, together with anything
that may be claimed besides (`Keeps`): in particular no assertion fails, and nothing is deleted from a
list that is not on it. The one exception is the second part of `__hate_page`.
-/

namespace Mcpq.Kernel.LruCache

variable {C : Type*} [DecidableEq C] [Fintype C]

/-- The instruction is executed, and what is claimed remains valid. -/
def Keeps (m : Machine) (ch : Choice C) (s : Cache C) (i : Instr C)
    (R : PageRef → Multiset Claim) : Prop :=
  ∃ r, exec m ch s i = .ok r ∧ Inv m r.1 ((r.2.map Instr.claims).sum + R)

variable {m : Machine} {ch : Choice C} {s s' : Cache C} {i i' : Instr C} {p : PageRef}
  {R : PageRef → Multiset Claim}

/-- An instruction that ends its function. -/
theorem Keeps.of_nil (he : exec m ch s i = .ok (s', [])) (h : Inv m s' R) : Keeps m ch s i R :=
  ⟨_, he, by simpa using h⟩

/-- An instruction that is followed by another one. -/
theorem Keeps.of_one (he : exec m ch s i = .ok (s', [i'])) (h : Inv m s' (i'.claims + R)) :
    Keeps m ch s i R :=
  ⟨_, he, by simpa using h⟩

/-- An instruction that is followed by two others. -/
theorem Keeps.of_two {i'' : Instr C} (he : exec m ch s i = .ok (s', [i', i'']))
    (h : Inv m s' (i'.claims + (i''.claims + R))) : Keeps m ch s i R :=
  ⟨_, he, by simpa [add_assoc] using h⟩

/-! ## References -/

/-- A reference is put. The thread that puts the last one has the page to free. -/
theorem keeps_putPage (h : Inv m s (Instr.claims (.putPage p : Instr C) + R)) :
    Keeps m ch s (.putPage p) R := by
  obtain ⟨home, hm, hv⟩ := h
  have hcount : ((s.addCount p (-1)).page p).count = (s.view home p).count + -1 := by
    simp [Cache.addCount, Cache.modifyPage, Cache.view]
  by_cases hz : (s.view home p).count + -1 = 0
  · refine .of_one (by simp only [exec, hcount, if_pos hz]; rfl) ?_
    refine .change hv (.addCount hm _) fun hp => ?_
    have := hp.put
    rwa [if_pos hz] at this
  · refine .of_nil (by simp only [exec, hcount, if_neg hz]; rfl) ?_
    refine .finish hv (.addCount hm _) fun hp => ?_
    have := hp.put
    rwa [if_neg hz] at this

/-- The reference goes back to the user. -/
theorem keeps_returnRef (h : Inv m s (Instr.claims (.returnRef p : Instr C) + R)) :
    Keeps m ch s (.returnRef p) R := by
  obtain ⟨home, hm, hv⟩ := h
  exact .of_nil rfl (.finish hv (.setUsers hm _) fun hp => hp.giveBack)

/-- A page that is about to be freed is taken off its list. -/
theorem Inv.delete (h : Inv m s (one p .del + R)) :
    (s.page p).testBit .lru = true ∧
      ∃ s', (s.modifyPage p (·.clearBit .lru)).delPageFromLru p (m.zone p) = .ok s' ∧
        Inv m s' (one p .gone + R) := by
  obtain ⟨home, hm, hv, hp⟩ := h.head
  obtain ⟨l, hhome, hon⟩ := hp.listed hp.knows_head
  have ha₁ := Alters.modifyPage (p := p) hm (·.clearBit .lru)
  obtain ⟨s', hs', -, ha₂⟩ := Alters.delPageFromLru ha₁.members hhome hon.2.2.2
  refine ⟨hp.knows_head, s', hs', .change hv (ha₁.trans ha₂) fun hp => hp.delete ?_⟩
  have hon' : (lruFlags ((s.page p).clearBit .lru)).OnList l := by
    rw [lruFlags_clearLru]
    exact hon
  obtain ⟨hl, ha, hu⟩ := clean_clearListFlag _ hon'
  simp only [Cache.modifyPage, Function.update_self]
  exact ⟨hl.trans (by simp), ha, hu⟩

/-! ## Freeing -/

/-- `PG_lru` is read without the lock: nobody else has the page any more. -/
theorem keeps_pageCacheRelease (h : Inv m s (Instr.claims (.pageCacheRelease p : Instr C) + R)) :
    Keeps m ch s (.pageCacheRelease p) R := by
  obtain ⟨home, hm, hv⟩ := h
  cases hl : (s.page p).testBit .lru
  · refine .of_one (by simp only [exec, hl]; rfl) ?_
    rw [Instr.claims, each_cons, each_nil, add_zero]
    exact .change hv (.setOff hm _) fun hp => hp.testOff hl
  · exact .of_one (by simp only [exec, hl]; rfl) (.change hv (.refl hm) fun hp => hp.testLru hl)

/-- The page is taken off its list before it is freed. -/
theorem keeps_pageCacheReleaseLocked
    (h : Inv m s (Instr.claims (.pageCacheReleaseLocked p : Instr C) + R)) :
    Keeps m ch s (.pageCacheReleaseLocked p) R := by
  obtain ⟨hl, s', hs', hinv⟩ := Inv.delete h
  refine .of_one (by simp only [exec, hl, hs']; rfl) ?_
  rw [Instr.claims, each_cons, each_nil, add_zero]
  exact hinv

/-- The pages that are freed pass the checks. -/
theorem keeps_freePages {ps : List PageRef} (h : Inv m s (Instr.claims (.freePages ps : Instr C) + R)) :
    Keeps m ch s (.freePages ps) R := by
  cases ps with
  | nil =>
    rw [Instr.claims, each_nil, zero_add] at h
    exact .of_nil rfl h
  | cons p ps =>
    rw [Instr.claims, each_cons, add_assoc] at h
    obtain ⟨home, hm, hv, hp⟩ := h.head
    obtain ⟨hl, ha, hu⟩ := hp.knows_head
    have hc : (s.page p).count = 0 := (hp.unreferenced rfl rfl).1
    have hok : (decide ((s.page p).count ≠ 0) || (s.page p).testBit .lru ||
        (s.page p).testBit .active || (s.page p).testBit .unevictable) = false := by
      rw [hc, show (s.page p).testBit .lru = false from hl,
        show (s.page p).testBit .active = false from ha,
        show (s.page p).testBit .unevictable = false from hu]
      rfl
    have ha := Alters.modifyPage (p := p) hm fun x => { x with flags := fun _ => false, chain := none }
    refine .of_one (by simp only [exec, hok]; rfl) (.finish hv (ha.trans (.setFree ha.members true)) ?_)
    exact fun hp => hp.free_of_gone ⟨rfl, rfl, rfl⟩

omit [DecidableEq C] [Fintype C] in
/-- A page that is to be freed waits with the others. -/
theorem pagesToFree_claims (m : Machine) (p : PageRef) (todo toFree : List PageRef) :
    ((m.pagesToFree p todo toFree : List (Instr C)).map Instr.claims).sum =
      one p .gone + (each todo .ref + each toFree .gone) := by
  rw [Machine.pagesToFree]
  split_ifs
  · simp only [List.map_cons, List.map_nil, List.sum_cons, List.sum_nil, Instr.claims, each_cons,
      each_nil, add_zero]
    abel
  · simp only [List.map_cons, List.map_nil, List.sum_cons, List.sum_nil, Instr.claims, each_cons,
      add_zero]
    abel

/-- `release_pages` puts one reference after the other. -/
theorem keeps_releasePages {todo toFree : List PageRef}
    (h : Inv m s (Instr.claims (.releasePages todo toFree : Instr C) + R)) :
    Keeps m ch s (.releasePages todo toFree) R := by
  cases todo with
  | nil =>
    rw [Instr.claims, each_nil, zero_add] at h
    exact .of_one rfl h
  | cons p todo =>
    obtain ⟨home, hm, hv⟩ := h
    rw [Instr.claims, each_cons, add_assoc, add_assoc] at hv
    have hcount : ((s.addCount p (-1)).page p).count = (s.view home p).count + -1 := by
      simp [Cache.addCount, Cache.modifyPage, Cache.view]
    by_cases hz : (s.view home p).count + -1 = 0
    · refine .of_one (by simp only [exec, hcount, if_pos hz]; rfl) ?_
      rw [Instr.claims, add_assoc, add_assoc]
      refine .change hv (.addCount hm _) fun hp => ?_
      have := hp.put
      rwa [if_pos hz] at this
    · refine .of_one (by simp only [exec, hcount, if_neg hz]; rfl) ?_
      rw [Instr.claims, add_assoc]
      refine .finish hv (.addCount hm _) fun hp => ?_
      have := hp.put
      rwa [if_neg hz] at this

/-- `release_pages` has put the last reference, and reads `PG_lru`. -/
theorem keeps_releaseLru {todo toFree : List PageRef}
    (h : Inv m s (Instr.claims (.releaseLru p todo toFree : Instr C) + R)) :
    Keeps m ch s (.releaseLru p todo toFree) R := by
  obtain ⟨home, hm, hv⟩ := h
  rw [Instr.claims, add_assoc] at hv
  cases hl : (s.page p).testBit .lru
  · refine ⟨_, by simp only [exec, hl]; rfl, ?_⟩
    rw [pagesToFree_claims, add_assoc]
    exact .change hv (.setOff hm _) fun hp => hp.testOff hl
  · refine .of_one (by simp only [exec, hl]; rfl) ?_
    rw [Instr.claims, add_assoc]
    exact .change hv (.refl hm) fun hp => hp.testLru hl

/-- `release_pages` takes the page off its list. -/
theorem keeps_releaseLocked {todo toFree : List PageRef}
    (h : Inv m s (Instr.claims (.releaseLocked p todo toFree : Instr C) + R)) :
    Keeps m ch s (.releaseLocked p todo toFree) R := by
  rw [Instr.claims, add_assoc] at h
  obtain ⟨hl, s', hs', hinv⟩ := Inv.delete h
  refine ⟨_, by simp only [exec, hl, hs']; rfl, ?_⟩
  rw [pagesToFree_claims, add_assoc]
  exact hinv

/-! ## Pagevecs -/

/-- A thread takes the pages of one of the `lru_add_pvecs`. -/
theorem Inv.takePvec (h : Inv m s R) (cpu : C) (l : ℕ) :
    Inv m (s.setList (.pvec cpu l) [])
      (each (s.list (.pvec cpu l)) (.held (awaits l)) + R) := by
  obtain ⟨home, hm, hv⟩ := h
  refine ⟨_, hm.clear (.pvec cpu l), fun q => ?_⟩
  have hq := hv q
  by_cases hmem : q ∈ s.list (.pvec cpu l)
  · have hhome : home q = some (.pvec cpu l) := (hm.mem_iff _ _).1 hmem
    rw [Pi.add_apply, each, List.count_eq_one_of_mem (hm.nodup _) hmem, one_nsmul,
      Multiset.singleton_add]
    have := hq.unwait hhome
    rw [Cache.view, if_pos hmem]
    exact this
  · rw [Pi.add_apply, each, List.count_eq_zero_of_not_mem hmem, zero_nsmul, zero_add]
    rw [Cache.view, if_neg hmem]
    exact hq

/-- How often a page is in `lru_rotate_pvecs` when one of these is set. -/
theorem rotating_setRotatePvec (s : Cache C) (cpu : C) (ps : List PageRef) (q : PageRef) :
    ∑ c, ((s.setRotatePvec cpu ps).rotatePvec c).count q + (s.rotatePvec cpu).count q =
      ps.count q + ∑ c, (s.rotatePvec c).count q := by
  rw [← Finset.add_sum_erase Finset.univ (fun c => (s.rotatePvec c).count q) (Finset.mem_univ cpu),
    ← Finset.add_sum_erase Finset.univ
      (fun c => ((s.setRotatePvec cpu ps).rotatePvec c).count q) (Finset.mem_univ cpu)]
  have hrest : ∑ c ∈ Finset.univ.erase cpu, ((s.setRotatePvec cpu ps).rotatePvec c).count q =
      ∑ c ∈ Finset.univ.erase cpu, (s.rotatePvec c).count q := by
    refine Finset.sum_congr rfl fun c hc => ?_
    simp only [Cache.setRotatePvec, Function.update_of_ne (Finset.ne_of_mem_erase hc)]
  have hself : ((s.setRotatePvec cpu ps).rotatePvec cpu).count q = ps.count q := by
    simp only [Cache.setRotatePvec, Function.update_self]
  rw [hrest]
  simp only [hself]
  omega

/-- A thread takes the pages of one of the `lru_rotate_pvecs`. -/
theorem Inv.takeRotatePvec (h : Inv m s R) (cpu : C) :
    Inv m (s.setRotatePvec cpu []) (each (s.rotatePvec cpu) .ref + R) := by
  obtain ⟨home, hm, hv⟩ := h
  refine ⟨home, hm, fun q => (hv q).unrotate ?_⟩
  have := rotating_setRotatePvec s cpu [] q
  rw [List.count_nil, zero_add] at this
  exact (add_comm _ _).trans this |>.symm

/-- `lru_add_drain` drains the pagevecs of the CPU it is on. -/
theorem keeps_lruAddDrain (h : Inv m s (Instr.claims (.lruAddDrain : Instr C) + R)) :
    Keeps m ch s .lruAddDrain R := by
  refine ⟨_, rfl, ?_⟩
  have hz : ∀ is : List (Instr C), (∀ i ∈ is, i.claims = 0) → (is.map Instr.claims).sum = 0 := by
    intro is his
    rw [List.map_congr_left his, List.map_const', List.sum_replicate, smul_zero]
  rw [hz]
  · rwa [Instr.claims] at h
  · intro i hi
    rcases List.mem_append.1 hi with hi | hi
    · obtain ⟨l, -, rfl⟩ := List.mem_map.1 hi
      rfl
    · rw [List.mem_singleton.1 hi]
      rfl

/-- The pages of an `lru_add_pvecs` are taken out of it, to be added to the list. -/
theorem keeps_drainAdd {cpu : C} {l : ℕ} (h : Inv m s (Instr.claims (.drainAdd cpu l) + R)) :
    Keeps m ch s (.drainAdd cpu l) R := by
  rw [Instr.claims, zero_add] at h
  by_cases hne : s.list (.pvec cpu l) = []
  · exact .of_nil (by simp only [exec, hne]; rfl) h
  · refine .of_one (by simp only [exec, ne_eq, hne, not_false_eq_true, if_true]; rfl) ?_
    rw [Instr.claims, each_nil, add_zero]
    exact h.takePvec cpu l

/-- The pages of `lru_rotate_pvecs` are taken out of it. -/
theorem keeps_drainRotate {cpu : C} (h : Inv m s (Instr.claims (.drainRotate cpu) + R)) :
    Keeps m ch s (.drainRotate cpu) R := by
  rw [Instr.claims, zero_add] at h
  by_cases hne : s.rotatePvec cpu = []
  · exact .of_nil (by simp only [exec, hne]; rfl) h
  · refine .of_one (by simp only [exec, ne_eq, hne, not_false_eq_true, if_true]; rfl) ?_
    rw [Instr.claims, each_nil, add_zero]
    exact h.takeRotatePvec cpu

/-- A page whose zone and flags are those of a list that it is about to be put on. -/
theorem Inv.place {know : ZoneRef → LruFlags → Prop} (h : Inv m s (one p (.held know) + R))
    (f : Page → Page) {z : ZoneRef} {l : ℕ} (hcount : (f (s.page p)).count = (s.page p).count)
    (hf : know (m.zone p) (lruFlags (s.page p)) →
      m.zone p = z ∧ (lruFlags (f (s.page p))).lru = true ∧ (lruFlags (f (s.page p))).OnList l) :
    Inv m ((s.modifyPage p f).addPageToLruList p z l) (one p .ref + R) := by
  obtain ⟨home, hm, hv, hp⟩ := h.head
  obtain ⟨rfl, hl, hon⟩ := hf hp.knows_head
  have ha := Alters.modifyPage (p := p) hm f
  refine .change hv (ha.trans (.place ha.members (hp.home_eq_none rfl).1 _ l)) fun hp => ?_
  rw [hcount]
  exact hp.place hl hon

/-- A page of the pagevec is added to its list. -/
theorem keeps_pagevecLruAdd {todo done : List PageRef} {l : ℕ}
    (h : Inv m s (Instr.claims (.pagevecLruAdd todo done l : Instr C) + R)) :
    Keeps m ch s (.pagevecLruAdd todo done l) R := by
  cases todo with
  | nil =>
    refine .of_one rfl ?_
    rw [Instr.claims, each_nil, zero_add] at h
    rw [Instr.claims, each_nil, add_zero]
    exact h
  | cons p todo =>
    rw [Instr.claims, each_cons, add_assoc, add_assoc] at h
    obtain ⟨home, hm, hv, hp⟩ := h.head
    obtain ⟨⟨hl, ha, hu⟩, hfile, hlt⟩ := hp.knows_head
    have hok : (decide (l = lruUnevictable) || (s.page p).testBit .active ||
        (s.page p).testBit .unevictable || (s.page p).testBit .lru) = false := by
      rw [decide_eq_false hlt.ne, show (s.page p).testBit .lru = false from hl,
        show (s.page p).testBit .active = false from ha,
        show (s.page p).testBit .unevictable = false from hu]
      rfl
    have hclaims : (Instr.pagevecLruAdd todo (done ++ [p]) l : Instr C).claims + R =
        one p .ref + (each todo (.held (awaits l)) + (each done .ref + R)) := by
      rw [Instr.claims, each_append, each_cons, each_nil]
      abel
    cases hact : isActiveLru l
    · refine .of_one (by simp only [exec, hok, hact]; rfl) ?_
      rw [hclaims]
      refine Inv.place h (·.setBit .lru) rfl fun _ => ⟨rfl, by rw [lruFlags_setLru], ?_⟩
      rw [lruFlags_setLru]
      exact ⟨hu.trans (decide_eq_false hlt.ne).symm, ha.trans hact.symm, fun _ => hfile,
        hlt.trans (by decide)⟩
    · refine .of_one (by simp only [exec, hok, hact, if_true, modifyPage_modifyPage]; rfl) ?_
      rw [hclaims]
      refine Inv.place h (fun x => (x.setBit .lru).setBit .active) rfl fun _ =>
        ⟨rfl, by rw [lruFlags_setActive, lruFlags_setLru], ?_⟩
      rw [lruFlags_setActive, lruFlags_setLru]
      exact ⟨hu.trans (decide_eq_false hlt.ne).symm, hact.symm, fun _ => hfile, hlt.trans (by decide)⟩

/-- A page that is on a list is moved to another one. -/
theorem Inv.relocate (h : Inv m s R) (hl : (s.page p).testBit .lru = true) (f : Page → Page) {l : ℕ}
    (hcount : (f (s.page p)).count = (s.page p).count) (hf : (lruFlags (f (s.page p))).lru = true)
    (hon : (lruFlags (f (s.page p))).OnList l) :
    ∃ s', s.listDel p (m.zone p) = .ok s' ∧ s'.page = s.page ∧
      Inv m ((s'.modifyPage p f).addPageToLruList p (m.zone p) l) R ∧
      Inv m ((s'.modifyPage p f).setList (.lru (m.zone p) l)
        ((s'.modifyPage p f).list (.lru (m.zone p) l) ++ [p])) R := by
  obtain ⟨home, hm, hv⟩ := h
  obtain ⟨k, hhome, hk⟩ := (hv p).listed hl
  obtain ⟨s', hs', hpage, ha⟩ := Alters.listDel hm hhome hk.2.2.2
  have ha' := ha.trans (.modifyPage ha.members f)
  rw [hpage] at ha'
  have hnone : Function.update home p none p = none := Function.update_self ..
  refine ⟨s', hs', hpage, ?_, ?_⟩
  · refine .same hv (ha'.trans (.place ha'.members hnone _ l)) fun hp => ?_
    rw [hcount]
    exact hp.move hl hf hon
  · refine .same hv (ha'.trans (.append ha'.members hnone (.lru (m.zone p) l))) fun hp => ?_
    rw [hcount]
    exact hp.move hl hf hon

/-- A page of the pagevec is moved to the tail, if it is inactive. -/
theorem keeps_pagevecMoveTail {todo done : List PageRef}
    (h : Inv m s (Instr.claims (.pagevecMoveTail todo done : Instr C) + R)) :
    Keeps m ch s (.pagevecMoveTail todo done) R := by
  cases todo with
  | nil =>
    refine .of_one rfl ?_
    rw [Instr.claims, each_nil, zero_add] at h
    rw [Instr.claims, each_nil, add_zero]
    exact h
  | cons p todo =>
    have hclaims : (Instr.pagevecMoveTail (p :: todo) done : Instr C).claims + R =
        (Instr.pagevecMoveTail todo (done ++ [p]) : Instr C).claims + R := by
      rw [Instr.claims, Instr.claims, each_append, each_cons, each_cons, each_nil]
      abel
    rw [hclaims] at h
    by_cases hc : ((s.page p).testBit .lru && !(s.page p).testBit .active &&
        !(s.page p).testBit .unevictable) = true
    · simp only [Bool.and_eq_true, Bool.not_eq_true'] at hc
      obtain ⟨⟨hl, ha⟩, hu⟩ := hc
      obtain ⟨s', hs', hpage, -, hinv⟩ := h.relocate hl id rfl hl (onList_lruBaseType _ hu ha)
      have hid : s'.modifyPage p id = s' := by simp [Cache.modifyPage]
      rw [hid] at hinv
      exact .of_one (by simp only [exec, hl, ha, hu, hs']; rfl) hinv
    · exact .of_one (by simp only [exec, if_neg hc]) h

/-- A page is put in one of the `lru_add_pvecs`, whose pages are taken if it is full then. -/
theorem Inv.wait {know : ZoneRef → LruFlags → Prop} (h : Inv m s (one p (.held know) + R))
    {f : Page → Page} {l : ℕ} (hcount : (f (s.page p)).count = (s.page p).count)
    (hf : (lruFlags (f (s.page p))).Awaits l) (cpu : C) :
    Inv m (((s.modifyPage p f).addCount p 1).setList (.pvec cpu l) (s.list (.pvec cpu l) ++ [p]))
        (one p .ref + R) ∧
      Inv m (((s.modifyPage p f).addCount p 1).setList (.pvec cpu l) [])
        (each (s.list (.pvec cpu l) ++ [p]) (.held (awaits l)) + (one p .ref + R)) := by
  obtain ⟨home, hm, hv, hp⟩ := h.head
  have hadd : Inv m (((s.modifyPage p f).addCount p 1).setList (.pvec cpu l)
      (s.list (.pvec cpu l) ++ [p])) (one p .ref + R) := by
    have ha := Alters.modifyPage (p := p) hm f
    have ha := ha.trans (.addCount ha.members 1)
    refine .change hv (ha.trans (.append ha.members (hp.home_eq_none rfl).1 (.pvec cpu l))) fun hp => ?_
    rw [hcount]
    exact hp.wait cpu hf
  refine ⟨hadd, ?_⟩
  have htake := hadd.takePvec cpu l
  simpa only [Cache.setList, Function.update_self, Function.update_idem] using htake

omit [DecidableEq C] [Fintype C] in
/-- What the caller of `lru_cache_add_lru` claims then. -/
theorem callerDone_claims (caller : Caller) (p : PageRef) :
    ((caller.done p : List (Instr C)).map Instr.claims).sum = one p .ref := by
  cases caller
  all_goals
    rw [Caller.done, List.map_singleton, List.sum_singleton]
    rfl

/-- The page is put in the pagevec for its list. -/
theorem keeps_lruCacheAddLru {l : ℕ} {caller : Caller}
    (h : Inv m s (Instr.claims (.lruCacheAddLru p l caller : Instr C) + R)) :
    Keeps m ch s (.lruCacheAddLru p l caller) R := by
  obtain ⟨home, hm, hv, hp⟩ := h.head
  obtain ⟨hl, hau, hfile, hlt⟩ := hp.knows_head
  -- What the tests of the flags leave.
  have hclear : ∃ f : Page → Page, (f (s.page p)).count = (s.page p).count ∧
      (lruFlags (f (s.page p))).Awaits l ∧
        (if (s.page p).testBit .active then
            if (s.page p).testBit .unevictable then .error .bug
            else .ok (s.modifyPage p (·.clearBit .active))
          else if (s.page p).testBit .unevictable then
            .ok (s.modifyPage p (·.clearBit .unevictable))
          else .ok s) = (.ok (s.modifyPage p f) : Result (Cache C)) := by
    have ha' : (lruFlags (s.page p)).active = (s.page p).testBit .active := rfl
    have hu' : (lruFlags (s.page p)).unevictable = (s.page p).testBit .unevictable := rfl
    change (lruFlags (s.page p)).active = false ∨ (lruFlags (s.page p)).unevictable = false at hau
    cases ha : (s.page p).testBit .active with
    | true =>
      have hu : (s.page p).testBit .unevictable = false := by
        rw [ha', ha] at hau
        exact hau.resolve_left (by simp)
      refine ⟨(·.clearBit .active), rfl, ?_, by rw [if_pos rfl, hu]; rfl⟩
      rw [lruFlags_clearActive]
      exact ⟨⟨hl, rfl, hu⟩, hfile, hlt⟩
    | false =>
      cases hu : (s.page p).testBit .unevictable with
      | true =>
        refine ⟨(·.clearBit .unevictable), rfl, ?_, by rfl⟩
        rw [lruFlags_clearUnevictable]
        exact ⟨⟨hl, ha, rfl⟩, hfile, hlt⟩
      | false => exact ⟨id, rfl, ⟨⟨hl, ha, hu⟩, hfile, hlt⟩, by simp [Cache.modifyPage]⟩
  obtain ⟨f, hcount, hf, heq⟩ := hclear
  have hok : ((f (s.page p)).testBit .lru || (f (s.page p)).testBit .active ||
      (f (s.page p)).testBit .unevictable) = false := by
    obtain ⟨⟨hl, ha, hu⟩, -⟩ := hf
    rw [show (f (s.page p)).testBit .lru = false from hl,
      show (f (s.page p)).testBit .active = false from ha,
      show (f (s.page p)).testBit .unevictable = false from hu]
    rfl
  obtain ⟨hadd, htake⟩ := Inv.wait h hcount hf ch.cpu
  by_cases hfull : m.pagevecSize ≤ (s.list (.pvec ch.cpu l) ++ [p]).length
  · refine ⟨(((s.modifyPage p f).addCount p 1).setList (.pvec ch.cpu l) [],
      .pagevecLruAdd (s.list (.pvec ch.cpu l) ++ [p]) [] l :: caller.done p), ?_, ?_⟩
    · simp only [exec, heq, bind, Except.bind, modifyPage_page, hok]
      exact if_pos hfull
    · rw [List.map_cons, List.sum_cons, callerDone_claims, Instr.claims, each_nil, add_zero, add_assoc]
      exact htake
  · refine ⟨(((s.modifyPage p f).addCount p 1).setList (.pvec ch.cpu l)
      (s.list (.pvec ch.cpu l) ++ [p]), caller.done p), ?_, ?_⟩
    · simp only [exec, heq, bind, Except.bind, modifyPage_page, hok]
      exact if_neg hfull
    · rw [callerDone_claims]
      exact hadd

/-- A page is put in one of the `lru_rotate_pvecs`. -/
theorem Alters.rotate {home : PageRef → Option (Place C)} (hm : Members home s.list) (cpu : C) :
    Alters p s home (s.setRotatePvec cpu (s.rotatePvec cpu ++ [p])) home
      fun v => { v with rotating := v.rotating + 1 } where
  members := hm
  view := by
    funext q
    have hrot := rotating_setRotatePvec s cpu (s.rotatePvec cpu ++ [p]) q
    rw [List.count_append, add_assoc, add_comm, add_left_cancel_iff] at hrot
    by_cases hq : q = p
    · subst hq
      rw [List.count_singleton_self, add_comm] at hrot
      rw [Function.update_self, Cache.view, hrot]
      rfl
    · rw [List.count_singleton, if_neg (by simpa using Ne.symm hq), zero_add] at hrot
      rw [Function.update_of_ne hq, Cache.view, hrot]
      rfl

/-- The page is put in `lru_rotate_pvecs`, if it is inactive. -/
theorem keeps_rotateReclaimablePage
    (h : Inv m s (Instr.claims (.rotateReclaimablePage p : Instr C) + R)) :
    Keeps m ch s (.rotateReclaimablePage p) R := by
  by_cases hc : (!(s.page p).testBit .locked && !(s.page p).testBit .dirty &&
      !(s.page p).testBit .active && !(s.page p).testBit .unevictable && (s.page p).testBit .lru) = true
  · obtain ⟨home, hm, hv⟩ := h
    have ha := Alters.addCount (p := p) hm 1
    have hadd : Inv m ((s.addCount p 1).setRotatePvec ch.cpu (s.rotatePvec ch.cpu ++ [p]))
        (one p .ref + R) := .change hv (ha.trans (.rotate ha.members ch.cpu)) fun hp => hp.rotate
    have htake := hadd.takeRotatePvec ch.cpu
    by_cases hfull : m.pagevecSize ≤ (s.rotatePvec ch.cpu ++ [p]).length
    · refine .of_two (by simp only [exec, hc, if_true]; exact if_pos hfull) ?_
      rw [Instr.claims, each_nil, add_zero]
      simp only [Cache.setRotatePvec, Function.update_self, Function.update_idem] at htake
      exact htake
    · refine .of_one (by simp only [exec, hc, if_true]; exact if_neg hfull) ?_
      exact hadd
  · refine .of_one (by simp only [exec, if_neg hc]; rfl) ?_
    exact h

/-! ## Lists -/

/-- `activate_page` tests `PG_lru` under the lock. -/
theorem keeps_activatePage (h : Inv m s (Instr.claims (.activatePage p : Instr C) + R)) :
    Keeps m ch s (.activatePage p) R := by
  by_cases hc : ((s.page p).testBit .lru && !(s.page p).testBit .active &&
      !(s.page p).testBit .unevictable) = true
  · have hc' := hc
    simp only [Bool.and_eq_true, Bool.not_eq_true'] at hc'
    obtain ⟨⟨hl, ha⟩, hu⟩ := hc'
    have hon := onList_active ((s.page p).setBit .active) (by simpa using hu) (by simp)
    rw [setActive_lruBaseType] at hon
    obtain ⟨s', hs', -, hinv, -⟩ := h.relocate hl (·.setBit .active) rfl
      (by rw [lruFlags_setActive]; exact hl) hon
    refine .of_one (by simp only [exec, hc, if_true, hs']; rfl) ?_
    exact hinv
  · refine .of_one (by simp only [exec, if_neg hc]; rfl) ?_
    exact h

/-- A page of the unevictable list is moved to the list of its flags, if it is evictable. -/
theorem keeps_checkMoveUnevictablePage
    (h : Inv m s (Instr.claims (.checkMoveUnevictablePage p : Instr C) + R)) :
    Keeps m ch s (.checkMoveUnevictablePage p) R := by
  rw [Instr.claims, zero_add] at h
  by_cases hc : ((s.page p).testBit .lru && (s.page p).testBit .unevictable) = true
  · have hc' := hc
    simp only [Bool.and_eq_true] at hc'
    obtain ⟨hl, hu⟩ := hc'
    have ha : (s.page p).testBit .active = false := by
      obtain ⟨home, hm, hv⟩ := h
      obtain ⟨l, -, hon⟩ := (hv p).listed hl
      obtain ⟨hun, hact, -⟩ := hon
      have hlu : l = lruUnevictable := by
        rw [show ((s.view home p).flags).unevictable = true from hu, eq_comm,
          decide_eq_true_eq] at hun
        exact hun
      rw [hlu] at hact
      exact hact.trans (by decide)
    by_cases hev : pageEvictable (s.page p) ch = true
    · have hon := onList_lruBaseType ((s.page p).clearBit .unevictable) (by simp) (by simpa using ha)
      rw [clearUnevictable_lruBaseType] at hon
      obtain ⟨s', hs', hpage, hinv, -⟩ := h.relocate hl (·.clearBit .unevictable) rfl
        (by rw [lruFlags_clearUnevictable]; exact hl) hon
      refine .of_nil (by simp only [exec, hc, if_true, ha, hs', hev]; rfl) ?_
      rw [modifyPage_page, hpage, clearUnevictable_lruBaseType]
      exact hinv
    · obtain ⟨s', hs', -, hinv, -⟩ := h.relocate hl id rfl hl (onList_unevictable _ hu ha)
      have hid : s'.modifyPage p id = s' := by simp [Cache.modifyPage]
      rw [hid] at hinv
      refine .of_nil (by simp only [exec, hc, if_true, ha, hs', hev]; rfl) ?_
      exact hinv
  · refine .of_nil (by simp only [exec, if_neg hc]; rfl) ?_
    exact h

/-! ## Isolation -/

omit [DecidableEq C] [Fintype C] in
/-- A page that could not be isolated is still referenced. -/
theorem afterFail_claims (after : After) (p : PageRef) :
    ((after.fail p : List (Instr C)).map Instr.claims).sum = one p .ref := by
  cases after
  all_goals
    rw [After.fail, List.map_singleton, List.sum_singleton]
    rfl

omit [DecidableEq C] [Fintype C] in
/-- A page that has been isolated is in custody, with a reference. -/
theorem afterDone_claims (after : After) (p : PageRef) :
    ((after.done p : List (Instr C)).map Instr.claims).sum =
      one p (.held offLru) + one p .ref := by
  cases after with
  | migrate => simp [After.done, Instr.claims]
  | redo => simp [After.done, Instr.claims, add_comm]

/-- A page on a list that is not about to be freed is taken off. -/
theorem Inv.take (h : Inv m s R) (hl : (s.page p).testBit .lru = true) (hc : (s.page p).count ≠ 0)
    (know : ZoneRef → LruFlags → Prop) (hk : know (m.zone p) (lruFlags ((s.page p).clearBit .lru))) :
    ∃ s', ((s.addCount p 1).modifyPage p (·.clearBit .lru)).listDel p (m.zone p) = .ok s' ∧
      Inv m s' (one p (.held know) + R) := by
  obtain ⟨home, hm, hv⟩ := h
  obtain ⟨l, hhome, hon⟩ := (hv p).listed hl
  have ha := Alters.addCount (p := p) hm 1
  have ha := ha.trans (.modifyPage ha.members (·.clearBit .lru))
  obtain ⟨s', hs', -, ha'⟩ := Alters.listDel ha.members hhome hon.2.2.2
  refine ⟨s', hs', .start hv (ha.trans ha') fun hp => ?_⟩
  have htake := hp.take hhome hc (by rw [lruFlags_clearLru]) hk
  simpa [Cache.addCount, Cache.view] using htake

/-- `PG_lru` is tested before the lock is taken. -/
theorem keeps_isolateLruPage {after : After}
    (h : Inv m s (Instr.claims (.isolateLruPage p after : Instr C) + R)) :
    Keeps m ch s (.isolateLruPage p after) R := by
  cases hl : (s.page p).testBit .lru
  · refine ⟨_, by simp only [exec, hl]; rfl, ?_⟩
    rw [if_neg (by simp), afterFail_claims]
    exact h
  · refine .of_one (by simp only [exec, hl]; rfl) ?_
    exact h

/-- `PG_lru` is tested again under the lock. -/
theorem keeps_isolateLruPageLocked {after : After}
    (h : Inv m s (Instr.claims (.isolateLruPageLocked p after : Instr C) + R)) :
    Keeps m ch s (.isolateLruPageLocked p after) R := by
  by_cases hc : ((s.page p).testBit .lru && decide ((s.page p).count ≠ 0)) = true
  · have hc' := hc
    rw [Bool.and_eq_true, decide_eq_true_eq] at hc'
    obtain ⟨s', hs', hinv⟩ := h.take hc'.1 hc'.2 offLru (by rw [lruFlags_clearLru]; rfl)
    refine ⟨(s', after.done p), by simp only [exec, hc, if_true, hs']; rfl, ?_⟩
    rw [afterDone_claims, add_assoc]
    exact hinv
  · refine ⟨(s, after.fail p), by simp only [exec, if_neg hc], ?_⟩
    rw [afterFail_claims]
    exact h

/-- The pages of a list are reordered. -/
theorem Inv.reorder (h : Inv m s R) {k : Place C} {ps : List PageRef} (hps : ps.Perm (s.list k)) :
    Inv m (s.setList k ps) R := by
  obtain ⟨home, hm, hv⟩ := h
  refine ⟨home, hm.perm fun c => ?_, hv⟩
  by_cases hc : c = k
  · subst hc
    simpa only [Cache.setList, Function.update_self] using hps
  · simp only [Cache.setList, Function.update_of_ne hc, List.Perm.refl]

omit [DecidableEq C] in
/-- A thread changes the flags of the pages that are in its custody. -/
theorem Inv.alterEach {ps : List PageRef} {know : ZoneRef → LruFlags → Prop}
    (h : Inv m s (each ps (.held know) + R)) (know' : ZoneRef → LruFlags → Prop) (f : Page → Page)
    (hcount : ∀ x, (f x).count = x.count)
    (hf : ∀ p, know (m.zone p) (lruFlags (s.page p)) →
      (lruFlags (f (s.page p))).lru = false ∧ know' (m.zone p) (lruFlags (f (s.page p)))) :
    Inv m { s with page := fun p => if p ∈ ps then f (s.page p) else s.page p }
      (each ps (.held know') + R) := by
  obtain ⟨home, hm, hv⟩ := h
  refine ⟨home, hm, fun q => ?_⟩
  by_cases hq : q ∈ ps
  · have hpage : (if q ∈ ps then f (s.page q) else s.page q) = f (s.page q) := if_pos hq
    simp only [Cache.view, hpage, hcount]
    exact (hv q).alterEach (fun hz => absurd hz (List.count_pos_iff.2 hq).ne') fun _ => hf q
  · have hpage : (if q ∈ ps then f (s.page q) else s.page q) = s.page q := if_neg hq
    simp only [Cache.view, hpage]
    exact (hv q).alterEach (fun _ => rfl) fun hne => absurd (List.count_eq_zero_of_not_mem hq) hne

omit [DecidableEq C] in
/-- A thread forgets what it knows of the pages in its custody. -/
theorem Inv.forget {ps : List PageRef} {know : ZoneRef → LruFlags → Prop}
    (h : Inv m s (each ps (.held know) + R)) (know' : ZoneRef → LruFlags → Prop)
    (hk : ∀ z f, know z f → f.lru = false ∧ know' z f) : Inv m s (each ps (.held know') + R) := by
  have := h.alterEach know' id (fun _ => rfl) fun p => hk _ _
  simpa only [id, ite_self] using this

/-- Less is known of the flags. -/
theorem isolated_mono {z z' : ZoneRef} {active file active' file' : Option Bool} {f : LruFlags}
    (h : isolated z active file z' f) (ha : ∀ b ∈ active', b ∈ active) (hf : ∀ b ∈ file', b ∈ file) :
    isolated z active' file' z' f :=
  ⟨h.1, h.2.1, h.2.2.1, fun b hb => h.2.2.2.1 b (ha b hb), fun b hb => h.2.2.2.2 b (hf b hb)⟩

/-- A page that is isolated from the list that is scanned. -/
theorem Inv.isolate {z : ZoneRef} {active file : Bool} (h : Inv m s R)
    (hmem : p ∈ s.list (.lru z (Reclaim.isolatedList active file))) :
    (s.page p).testBit .lru = true ∧ (lruFlags (s.page p)).OnList (Reclaim.isolatedList active file) ∧
      ((s.page p).count ≠ 0 →
        Inv m ((s.modifyPage p fun _ =>
          Page.clearBit { s.page p with count := (s.page p).count + 1 } .lru).setList
            (.lru z (Reclaim.isolatedList active file))
            ((s.list (.lru z (Reclaim.isolatedList active file))).erase p))
          (one p (.held (isolated z (some active) (some file))) + R)) := by
  obtain ⟨home, hm, hv⟩ := h
  have hhome := (hm.mem_iff _ _).1 hmem
  have hfits := (hv p).fits
  rw [Cache.view, hhome] at hfits
  obtain ⟨hl, rfl, hon⟩ := hfits
  refine ⟨hl, hon, fun hc => ?_⟩
  have ha := Alters.modifyPage (p := p) hm fun _ =>
    Page.clearBit { s.page p with count := (s.page p).count + 1 } .lru
  refine .start hv (ha.trans (.setHome (ha.members.detach hhome))) fun hp => ?_
  exact hp.take hhome hc (by rw [lruFlags_clearLru]) (isolated_of_onList (s.page p) hon)

/-- The pages that reclaim isolates go from the list to the thread, with a reference each. -/
theorem keeps_isolatePages {z : ZoneRef} {nr : ℕ} {active file : Bool} {dst : List PageRef}
    (h : Inv m s (Instr.claims (.isolatePages z nr active file dst : Instr C) + R)) :
    Keeps m ch s (.isolatePages z nr active file dst) R := by
  have hend : Inv m s ((List.map Instr.claims
      (if active then [(.shrinkActiveList z file dst [] [] : Instr C)] else if dst = [] then []
        else [.updateIsolatedCounts z dst])).sum + R) := by
    split_ifs with hactive hdst
    · subst hactive
      simpa [Instr.claims] using h
    · subst hdst
      simpa [Instr.claims] using h
    · rw [List.map_singleton, List.sum_singleton]
      exact Inv.forget h _ fun z' f hk => ⟨hk.2.1, isolated_mono hk (by simp) (by simp)⟩
  cases nr with
  | zero => exact ⟨_, rfl, hend⟩
  | succ nr =>
    cases hlast : (s.list (.lru z (Reclaim.isolatedList active file))).getLast? with
    | none => exact ⟨_, by simp only [exec, hlast]; rfl, hend⟩
    | some p =>
      have hmem := List.mem_of_getLast? hlast
      obtain ⟨hl, hon, hinv⟩ := h.isolate hmem
      have heq := isolateLruPage_eq (s.page p) hon hl
      by_cases hc : (s.page p).count ≠ 0
      · rw [if_pos hc] at heq
        refine .of_one (by simp only [exec, hlast, hl, heq]; rfl) ?_
        rw [Instr.claims, each_append, each_cons, each_nil, add_zero, add_comm (each dst _), add_assoc]
        exact hinv hc
      · rw [if_neg hc] at heq
        refine .of_one (by simp only [exec, hlast, hl, heq]; rfl) ?_
        exact h.reorder (List.perm_cons_erase hmem).symm

/-! ## Putting pages back -/

omit [DecidableEq C] in
/-- The thread that has the custody of a page changes its flags. -/
theorem Inv.alter {know : ZoneRef → LruFlags → Prop} (h : Inv m s (one p (.held know) + R))
    (know' : ZoneRef → LruFlags → Prop) (f : Page → Page)
    (hcount : (f (s.page p)).count = (s.page p).count)
    (hf : know (m.zone p) (lruFlags (s.page p)) →
      (lruFlags (f (s.page p))).lru = false ∧ know' (m.zone p) (lruFlags (f (s.page p)))) :
    Inv m (s.modifyPage p f) (one p (.held know') + R) := by
  obtain ⟨home, hm, hv, hp⟩ := h.head
  obtain ⟨hl, hk⟩ := hf hp.knows_head
  refine .change hv (.modifyPage hm f) fun hp => ?_
  rw [hcount]
  exact hp.alter hl hk

omit [DecidableEq C] in
/-- What is known of a page is true. -/
theorem Inv.known {know : ZoneRef → LruFlags → Prop} (h : Inv m s (one p (.held know) + R)) :
    know (m.zone p) (lruFlags (s.page p)) := by
  obtain ⟨home, hm, hv, hp⟩ := h.head
  exact hp.knows_head

/-- The page is given back to the lists, or to the unevictable list. -/
theorem keeps_putbackLruPage (h : Inv m s (Instr.claims (.putbackLruPage p : Instr C) + R)) :
    Keeps m ch s (.putbackLruPage p) R := by
  have hl : (s.page p).testBit .lru = false := h.known
  refine .of_one (by simp only [exec, modifyPage_page, Page.testBit_clearBit, hl]; rfl) ?_
  refine Inv.alter h offLru (·.clearBit .active) rfl fun hl => ?_
  rw [lruFlags_clearActive]
  exact ⟨hl, hl⟩

/-- The page is put back once more. -/
theorem keeps_putbackRedo {active : Bool}
    (h : Inv m s (Instr.claims (.putbackRedo p active : Instr C) + R)) :
    Keeps m ch s (.putbackRedo p active) R := by
  have hl : (s.page p).testBit .lru = false := h.known
  by_cases hev : pageEvictable ((s.page p).clearBit .unevictable) ch = true
  · refine .of_one (by simp only [exec, modifyPage_page, hev, if_true]; rfl) ?_
    refine Inv.alter h (adds _) (·.clearBit .unevictable) rfl fun hl => ?_
    rw [lruFlags_clearUnevictable, clearUnevictable_lruBaseType]
    obtain ⟨hfile, hlt⟩ := evictableList_spec (s.page p) active
    exact ⟨hl, hl, .inr rfl, hfile.symm, hlt⟩
  · refine .of_one (by simp only [exec, modifyPage_page, if_neg hev]; rfl) ?_
    refine Inv.alter h offLru (·.clearBit .unevictable) rfl fun hl => ?_
    rw [lruFlags_clearUnevictable]
    exact ⟨hl, hl⟩

/-- An inactive page goes to the unevictable list. -/
theorem keeps_addPageToUnevictableList {active : Bool}
    (h : Inv m s (Instr.claims (.addPageToUnevictableList p active : Instr C) + R))
    (ha : (s.page p).testBit .active = false) :
    Keeps m ch s (.addPageToUnevictableList p active) R := by
  refine .of_one (by simp only [exec, modifyPage_modifyPage]; rfl) ?_
  refine Inv.place h (fun x => (x.setBit .unevictable).setBit .lru) rfl fun _ => ⟨rfl, ?_, ?_⟩
  · rw [lruFlags_setLru]
  · exact onList_unevictable _ (by simp) (by simpa using ha)

/-- `putback_lru_page` looks again whether the page is evictable. -/
theorem keeps_putbackRecheck {active : Bool}
    (h : Inv m s (Instr.claims (.putbackRecheck p active : Instr C) + R)) :
    Keeps m ch s (.putbackRecheck p active) R := by
  by_cases hev : pageEvictable (s.page p) ch = true
  · refine .of_one (by simp only [exec, hev, if_true]; rfl) ?_
    exact h
  · refine .of_one (by simp only [exec, if_neg hev]; rfl) ?_
    exact h

/-! ## `shrink_page_list` -/

omit [DecidableEq C] in
/-- Less is known of a page in custody. -/
theorem Inv.forgetOne {know know' : ZoneRef → LruFlags → Prop} (h : Inv m s (one p (.held know) + R))
    (hk : ∀ z f, know z f → f.lru = false ∧ know' z f) : Inv m s (one p (.held know') + R) := by
  have hone : ∀ c, one p c = each [p] c := fun c => by rw [each_cons, each_nil, add_zero]
  rw [hone] at h ⊢
  exact h.forget know' hk

/-- `PG_active` of the isolated pages is cleared. -/
theorem keeps_updateIsolatedCounts {z : ZoneRef} {pages : List PageRef}
    (h : Inv m s (Instr.claims (.updateIsolatedCounts z pages : Instr C) + R)) :
    Keeps m ch s (.updateIsolatedCounts z pages) R := by
  refine .of_one rfl ?_
  rw [Instr.claims, each_nil, each_nil, add_zero, add_zero]
  refine Inv.alterEach h _ (·.clearBit .active) (fun _ => rfl) fun p hk => ?_
  rw [lruFlags_clearActive]
  exact ⟨hk.2.1, hk.1, hk.2.1, hk.2.2.1, by simp, by simp⟩

section ShrinkPageList

variable {z : ZoneRef} {todo ret toFree : List PageRef}

/-- The claims of `shrink_page_list` besides that to the page that it looks at. -/
def shrinking (z : ZoneRef) (todo ret toFree : List PageRef) : PageRef → Multiset Claim :=
  each todo (.held (isolated z (some false) none)) +
    (each ret (.held (isolated z none none)) + each toFree .gone)

omit [DecidableEq C] [Fintype C] in
theorem shrinkPageList_claims :
    (Instr.shrinkPageList z todo ret toFree : Instr C).claims = shrinking z todo ret toFree := rfl

/-- The next page is isolated from an inactive list. -/
theorem shrinking_cons : shrinking z (p :: todo) ret toFree =
    one p (.held (isolated z (some false) none)) + shrinking z todo ret toFree := by
  rw [shrinking, shrinking, each_cons, add_assoc]

/-- A page that is kept waits to be put back. -/
theorem shrinking_ret : shrinking z todo (ret ++ [p]) toFree =
    one p (.held (isolated z none none)) + shrinking z todo ret toFree := by
  rw [shrinking, shrinking, each_append, each_cons, each_nil]
  abel

/-- A page that has no reference any more waits to be freed. -/
theorem shrinking_toFree : shrinking z todo ret (p :: toFree) =
    one p .gone + shrinking z todo ret toFree := by
  rw [shrinking, shrinking, each_cons]
  abel

omit [DecidableEq C] in
/-- A page is kept. -/
theorem keeps_keepPage
    (h : Inv m s (one p (.held (isolated z none none)) + (shrinking z todo ret toFree + R))) :
    ∃ r, keepPage s z p todo ret toFree = .ok r ∧ Inv m r.1 ((r.2.map Instr.claims).sum + R) := by
  have hk := h.known
  have hok : ((s.page p).testBit .lru || (s.page p).testBit .unevictable) = false := by
    rw [show (s.page p).testBit .lru = false from hk.2.1,
      show (s.page p).testBit .unevictable = false from hk.2.2.1]
    rfl
  refine ⟨(s, [.shrinkPageList z todo (ret ++ [p]) toFree]), by rw [keepPage, hok]; rfl, ?_⟩
  rw [List.map_singleton, List.sum_singleton, shrinkPageList_claims, shrinking_ret, add_assoc]
  exact h

/-- `shrink_page_list` keeps the page, activates it, or goes on to free it. -/
theorem keeps_shrinkPageList
    (h : Inv m s (Instr.claims (.shrinkPageList z todo ret toFree : Instr C) + R)) :
    Keeps m ch s (.shrinkPageList z todo ret toFree) R := by
  cases todo with
  | nil =>
    refine .of_two rfl ?_
    rw [Instr.claims, each_nil, zero_add] at h
    rw [Instr.claims, Instr.claims, each_nil, add_zero, ← add_assoc, add_comm (each toFree _)]
    exact h
  | cons p todo =>
    rw [shrinkPageList_claims, shrinking_cons, add_assoc] at h
    have hk := h.known
    obtain ⟨r, hr, hinv⟩ := keeps_keepPage (h.forgetOne fun z' f hk =>
      ⟨hk.2.1, isolated_mono hk (by simp) (by simp)⟩)
    have hok : ((s.page p).testBit .active || decide (m.zone p ≠ z)) = false := by
      rw [show (s.page p).testBit .active = false from hk.2.2.2.1 false rfl,
        decide_eq_false (not_not.2 hk.1)]
      rfl
    cases hfate : ch.fate with
    | locked => exact ⟨r, by simp only [exec, hfate, if_true, hr], hinv⟩
    | keep => exact ⟨r, by simp only [exec, hfate, hok, hr]; rfl, hinv⟩
    | activate =>
      obtain ⟨r, hr, hinv⟩ := keeps_keepPage (Inv.alter h (isolated z none none) (·.setBit .active) rfl
        fun hk => by
          rw [lruFlags_setActive]
          exact ⟨hk.2.1, hk.1, hk.2.1, hk.2.2.1, by simp, by simp⟩)
      exact ⟨r, by simp only [exec, hfate, hok, hr]; rfl, hinv⟩
    | cull =>
      refine .of_two (by simp only [exec, hfate, hok]; rfl) ?_
      exact h.forgetOne fun z' f hk => ⟨hk.2.1, hk.2.1⟩
    | release =>
      by_cases hc : (!s.cached p && decide ((s.page p).count = 1)) = true
      · refine .of_one (by simp only [exec, hfate, hok, hc, if_true]; rfl) ?_
        rw [← add_assoc] at h
        exact h
      · exact ⟨r, by simp only [exec, hfate, hok, if_neg hc, hr]; rfl, hinv⟩
    | remove =>
      by_cases hc : (s.cached p && decide ((s.page p).count = 2)) = true
      · refine .of_one (by simp only [exec, hfate, hok, hc, if_true]; rfl) ?_
        rw [Bool.and_eq_true, decide_eq_true_eq] at hc
        obtain ⟨home, hm, hv⟩ := h
        rw [Instr.claims, add_assoc]
        exact .change hv (.addCount hm _) fun hp => hp.freeze hc.2 hc.1
      · exact ⟨r, by simp only [exec, hfate, hok, if_neg hc, hr]; rfl, hinv⟩

/-- An inactive page that is isolated has no flag of the lists. -/
theorem isolated_clean {z' : ZoneRef} {f : LruFlags} {file : Option Bool}
    (h : isolated z (some false) file z' f) : f.Clean :=
  ⟨h.2.1, h.2.2.2.1 false rfl, h.2.2.1⟩

/-- The buffers are released: the page is freed, left to its user, or goes on. -/
theorem keeps_releaseBuffers
    (h : Inv m s (Instr.claims (.releaseBuffers z p todo ret toFree : Instr C) + R)) :
    Keeps m ch s (.releaseBuffers z p todo ret toFree) R := by
  obtain ⟨home, hm, hv⟩ := h
  rw [Instr.claims, add_assoc] at hv
  have hcount : ((s.addCount p (-1)).page p).count = (s.view home p).count + -1 := by
    simp [Cache.addCount, Cache.modifyPage, Cache.view]
  by_cases hz : (s.view home p).count + -1 = 0
  · refine .of_one (by simp only [exec, hcount, if_pos hz]; rfl) ?_
    rw [shrinkPageList_claims, shrinking_toFree, add_assoc]
    refine .change hv (.addCount hm _) fun hp => ?_
    have := hp.drop (isolated_clean hp.knows_head)
    rwa [if_pos hz] at this
  · refine .of_one (by simp only [exec, hcount, if_neg hz]; rfl) ?_
    rw [shrinkPageList_claims]
    have ha := Alters.addCount (p := p) hm (-1)
    refine .finish hv (ha.trans (.setOff ha.members true)) fun hp => ?_
    have := hp.drop (isolated_clean hp.knows_head)
    rwa [if_neg hz] at this

/-- The references are frozen. They are given back if the page is dirty. -/
theorem keeps_removeMapping
    (h : Inv m s (Instr.claims (.removeMapping z p todo ret toFree : Instr C) + R)) :
    Keeps m ch s (.removeMapping z p todo ret toFree) R := by
  obtain ⟨home, hm, hv⟩ := h
  rw [Instr.claims, add_assoc] at hv
  cases hdirty : ch.dirty
  · refine .of_one (by simp only [exec, hdirty]; rfl) ?_
    rw [shrinkPageList_claims, shrinking_toFree, add_assoc]
    exact .change hv (.setCached hm _) fun hp => hp.remove (isolated_clean hp.knows_head)
  · have hinv : Inv m (s.addCount p 2) (one p (.held (isolated z (some false) none)) +
        (shrinking z todo ret toFree + R)) :=
      .change hv (.addCount hm _) fun hp => hp.unfreeze
    obtain ⟨r, hr, hinv⟩ := keeps_keepPage (hinv.forgetOne fun z' f hk =>
      ⟨hk.2.1, isolated_mono hk (by simp) (by simp)⟩)
    exact ⟨r, by simp only [exec, hdirty, if_true, hr], hinv⟩

end ShrinkPageList

/-! ## The ends of reclaim -/

/-- The pages that have been kept go back to the lists, in batches of a pagevec. -/
theorem keeps_putbackLruPages {z : ZoneRef} {todo pvec : List PageRef}
    (h : Inv m s (Instr.claims (.putbackLruPages z todo pvec : Instr C) + R)) :
    Keeps m ch s (.putbackLruPages z todo pvec) R := by
  cases todo with
  | nil =>
    rw [Instr.claims, each_nil, zero_add] at h
    by_cases hp : pvec = []
    · subst hp
      rw [each_nil, zero_add] at h
      exact .of_nil rfl h
    · refine .of_two (by simp only [exec, if_neg hp]; rfl) ?_
      rw [Instr.claims, Instr.claims, each_nil, add_zero, zero_add]
      exact h
  | cons p todo =>
    rw [Instr.claims, each_cons, add_assoc, add_assoc] at h
    have hk := h.known
    have hl : (s.page p).testBit .lru = false := hk.2.1
    by_cases hev : pageEvictable (s.page p) ch = true
    · refine ⟨_, by simp only [exec, hl, hev]; rfl, ?_⟩
      have hsum : ((if m.pagevecSize ≤ (pvec ++ [p]).length then
            [(.lruAddDrain : Instr C), .releasePages (pvec ++ [p]) [], .putbackLruPages z todo []]
          else [.putbackLruPages z todo (pvec ++ [p])]).map Instr.claims).sum + R =
          one p .ref + (each todo (.held (isolated z none none)) + (each pvec .ref + R)) := by
        split_ifs
        all_goals
          simp only [List.map_cons, List.map_nil, List.sum_cons, List.sum_nil, Instr.claims, each_append,
            each_cons, each_nil, add_zero, zero_add]
          abel
      rw [hsum]
      refine Inv.place h (·.setBit .lru) rfl fun hk => ⟨hk.1, by rw [lruFlags_setLru], ?_⟩
      rw [modifyPage_page]
      exact onList_lruList _ ((Page.testBit_setBit ..).trans hk.2.2.1)
    · refine .of_two (by simp only [exec, hl, hev]; rfl) ?_
      rw [Instr.claims, Instr.claims, add_assoc]
      exact h.forgetOne fun z' f hk => ⟨hk.2.1, hk.2.1⟩

omit [DecidableEq C] [Fintype C] in
/-- The pages in the pagevec are on the list again, and referenced. -/
theorem moveActivePagesToLru_claims (z : ZoneRef) (list pvec : List PageRef) (l : ℕ)
    (hpvec : list = [] → pvec = []) :
    (Instr.moveActivePagesToLru z list l pvec : Instr C).claims =
      each list (.held (isolatedFor z l)) + each pvec .ref := by
  cases list with
  | nil =>
    rw [hpvec rfl, each_nil, each_nil, add_zero]
    rfl
  | cons => rfl

/-- The lists that `shrink_active_list` puts pages on. -/
theorem shrinkActiveList_spec (file : Bool) (l : ℕ) (hl : l = if file then lruFile else lruBase) :
    (isActiveLru (lruActive + l) = true ∧ isFileLru (lruActive + l) = file ∧
        lruActive + l < lruUnevictable) ∧
      isActiveLru (lruBase + l) = false ∧ isFileLru (lruBase + l) = file ∧
        lruBase + l < lruUnevictable := by
  subst hl
  cases file <;> decide

/-- Each active page is to stay active, or to become inactive. -/
theorem keeps_shrinkActiveList {z : ZoneRef} {file : Bool} {hold active inactive : List PageRef}
    (h : Inv m s (Instr.claims (.shrinkActiveList z file hold active inactive : Instr C) + R)) :
    Keeps m ch s (.shrinkActiveList z file hold active inactive) R := by
  cases hold with
  | nil =>
    obtain ⟨⟨h₁, h₂, h₃⟩, h₄, h₅, h₆⟩ := shrinkActiveList_spec file _ rfl
    refine .of_two rfl ?_
    rw [Instr.claims, each_nil, zero_add, add_assoc] at h
    rw [moveActivePagesToLru_claims _ _ _ _ fun _ => rfl, each_nil, add_zero,
      moveActivePagesToLru_claims _ _ _ _ fun _ => rfl, each_nil, add_zero]
    have h := h.forget (isolatedFor z _) fun z' f hk => ⟨hk.2.1, by rwa [h₁, h₂], h₃⟩
    rw [add_left_comm] at h ⊢
    exact h.forget (isolatedFor z _) fun z' f hk => ⟨hk.2.1, by rwa [h₄, h₅], h₆⟩
  | cons p hold =>
    have hcons : (Instr.shrinkActiveList z file (p :: hold) active inactive : Instr C).claims + R =
        one p (.held (isolated z (some true) (some file))) +
          ((Instr.shrinkActiveList z file hold active inactive : Instr C).claims + R) := by
      rw [Instr.claims, Instr.claims, each_cons]
      abel
    rw [hcons] at h
    by_cases hev : pageEvictable (s.page p) ch = true
    · by_cases hx : (ch.executable && (s.page p).isFileCache) = true
      · refine .of_one (by simp only [exec, hev, hx]; rfl) ?_
        have hsum : (Instr.shrinkActiveList z file hold (active ++ [p]) inactive : Instr C).claims + R =
            one p (.held (isolated z (some true) (some file))) +
              ((Instr.shrinkActiveList z file hold active inactive : Instr C).claims + R) := by
          rw [Instr.claims, Instr.claims, each_append, each_cons, each_nil]
          abel
        rw [hsum]
        exact h
      · refine .of_one (by simp only [exec, hev, if_neg hx]; rfl) ?_
        have hsum : (Instr.shrinkActiveList z file hold active (inactive ++ [p]) : Instr C).claims + R =
            one p (.held (isolated z (some false) (some file))) +
              ((Instr.shrinkActiveList z file hold active inactive : Instr C).claims + R) := by
          rw [Instr.claims, Instr.claims, each_append, each_cons, each_nil]
          abel
        rw [hsum]
        refine Inv.alter h _ (·.clearBit .active) rfl fun hk => ?_
        rw [lruFlags_clearActive]
        exact ⟨hk.2.1, hk.1, hk.2.1, hk.2.2.1, by simp, hk.2.2.2.2⟩
    · refine .of_two (by simp only [exec, hev]; rfl) ?_
      exact h.forgetOne fun z' f hk => ⟨hk.2.1, hk.2.1⟩

/-- The pages are added to the list, in batches of a pagevec. -/
theorem keeps_moveActivePagesToLru {z : ZoneRef} {list pvec : List PageRef} {l : ℕ}
    (h : Inv m s (Instr.claims (.moveActivePagesToLru z list l pvec : Instr C) + R)) :
    Keeps m ch s (.moveActivePagesToLru z list l pvec) R := by
  cases list with
  | nil =>
    rw [Instr.claims, zero_add] at h
    exact .of_nil rfl h
  | cons p list =>
    rw [moveActivePagesToLru_claims _ _ _ _ (fun hnil => absurd hnil (List.cons_ne_nil _ _)), each_cons,
      add_assoc, add_assoc] at h
    have hl : (s.page p).testBit .lru = false := h.known.1.2.1
    refine ⟨_, by simp only [exec, hl]; rfl, ?_⟩
    have hsum : ((if decide (m.pagevecSize ≤ (pvec ++ [p]).length) || decide (list = []) then
          [(.lruAddDrain : Instr C), .releasePages (pvec ++ [p]) [], .moveActivePagesToLru z list l []]
        else [.moveActivePagesToLru z list l (pvec ++ [p])]).map Instr.claims).sum + R =
        one p .ref + (each list (.held (isolatedFor z l)) + (each pvec .ref + R)) := by
      split_ifs with hflush
      · simp only [List.map_cons, List.map_nil, List.sum_cons, List.sum_nil,
          moveActivePagesToLru_claims z list [] l fun _ => rfl]
        simp only [Instr.claims, each_append, each_cons, each_nil, add_zero, zero_add]
        abel
      · have hne : list ≠ [] := fun hnil => hflush (by rw [decide_eq_true hnil, Bool.or_true])
        simp only [List.map_cons, List.map_nil, List.sum_cons, List.sum_nil,
          moveActivePagesToLru_claims z list (pvec ++ [p]) l fun hnil => absurd hnil hne]
        simp only [each_append, each_cons, each_nil, add_zero]
        abel
    rw [hsum]
    refine Inv.place h (·.setBit .lru) rfl fun hk => ⟨hk.1.1, by rw [lruFlags_setLru], ?_⟩
    rw [lruFlags_setLru]
    obtain ⟨⟨-, -, hu, ha, hf⟩, hlt⟩ := hk
    exact ⟨hu.trans (decide_eq_false hlt.ne).symm, ha _ rfl, fun _ => hf _ rfl, hlt.trans (by decide)⟩

/-! ## `__hate_page` -/

/-- `__hate_page` tests `PG_lru` without the lock. -/
theorem keeps_hatePage (h : Inv m s (Instr.claims (.hatePage p : Instr C) + R)) :
    Keeps m ch s (.hatePage p) R := by
  cases hl : (s.page p).testBit .lru
  · refine .of_nil (by simp only [exec, hl]; rfl) ?_
    rwa [Instr.claims, zero_add] at h
  · refine .of_one (by simp only [exec, hl]; rfl) ?_
    exact h

/-- The second part of `__hate_page` fails if the page has been taken off its list after the first. -/
theorem keeps_hatePageLocked (h : Inv m s (Instr.claims (.hatePageLocked p : Instr C) + R))
    (hl : (s.page p).testBit .lru = true) : Keeps m ch s (.hatePageLocked p) R := by
  rw [Instr.claims, zero_add] at h
  obtain ⟨home, hm, hv⟩ := h
  obtain ⟨l, hhome, hon⟩ := (hv p).listed hl
  obtain ⟨s', hs', hpage, ha⟩ := Alters.delPageFromLru hm hhome hon.2.2.2
  obtain ⟨hl', -, hu⟩ := clean_clearListFlag _ hon
  refine .of_nil (by simp only [exec, hs', modifyPage_modifyPage]; rfl) ?_
  have ha := ha.trans (.modifyPage ha.members fun x => (x.clearBit .active).clearBit .referenced)
  refine .same hv (ha.trans (.place ha.members (Function.update_self ..) (m.zone p) _)) fun hp => ?_
  rw [hpage, clearBit_count, clearBit_count, clearListFlag_count]
  have hon' := onList_lruBaseType (((clearListFlag (s.page p)).clearBit .active).clearBit .referenced)
    (by rw [Page.testBit_clearBit, Page.testBit_clearBit]; exact hu) (by simp)
  rw [clearReferenced_lruBaseType, clearActive_lruBaseType, clearListFlag_lruBaseType] at hon'
  refine hp.move hl ?_ hon'
  rw [lruFlags_clearReferenced, lruFlags_clearActive]
  exact hl'.trans hl

end Mcpq.Kernel.LruCache
