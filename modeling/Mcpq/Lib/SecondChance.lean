import Mcpq.Lib.Paging

/-!
# Second chance

A memory as a queue of pages with a reference bit. On a fault of a full memory, the first page is
examined: it goes to the back with its bit cleared if the bit is set, and is evicted otherwise
(`examine`).

The new page joins the back of the queue, in the *second-chance* queue (`joinBack`). In a *ring*
(`joinFront`) it joins the front, where the page evicted was.

* `evict_eq_some`: the page evicted is the first one whose bit is clear, or the first one if all bits
  are set, and the others are rotated;
* `Trail`: what the hand of a ring has done that the queue does not. It takes the bit of the newest
  page, and where the queue clears all bits to evict a page whose bit was taken, it leaves them;
* `outcomes_eq_iff`: a ring has the outcomes of the queue exactly if, by its bits and its trail, each
  of its evictions is in time (`Trail.InTime`).
-/

namespace Mcpq.SecondChance

variable {α : Type*}

/-- The pages, without their bits. -/
def pages (q : List (α × Bool)) : List α := q.map Prod.fst

/-- Clear all bits. -/
def clear (q : List (α × Bool)) : List (α × Bool) := q.map fun e => (e.1, false)

/-- Examine the first page, until one is evicted. -/
def examine : ℕ → List (α × Bool) → Option (α × List (α × Bool))
  | 0, _ => none
  | _ + 1, [] => none
  | fuel + 1, (p, true) :: q => examine fuel (q ++ [(p, false)])
  | _ + 1, (p, false) :: q => some (p, q)

/-- The page evicted, and the other pages. -/
def evict (q : List (α × Bool)) : Option (α × List (α × Bool)) := examine (q.length + 1) q

/-- The new page joins the back. -/
def joinBack (e : α × Bool) (q : List (α × Bool)) : List (α × Bool) := q ++ [e]

/-- The new page joins the front. -/
def joinFront (e : α × Bool) (q : List (α × Bool)) : List (α × Bool) := e :: q

section access

variable [DecidableEq α] (join : α × Bool → List (α × Bool) → List (α × Bool)) (n : ℕ)

/-- Set the bit of a page. -/
def mark (a : α) (q : List (α × Bool)) : List (α × Bool) :=
  q.map fun e => (e.1, e.2 || e.1 = a)

/-- An access to a memory of capacity `n`. -/
def access (q : List (α × Bool)) (a : α) : List (α × Bool) × Outcome α :=
  if a ∈ pages q then (mark a q, .hit)
  else if q.length < n then (q ++ [(a, true)], .fault none)
  else match evict q with
    | some (p, rest) => (join (a, true) rest, .fault (some p))
    | none => (q, .fault none)

/-- The outcomes of a run from `q`. -/
def outcomes : List (α × Bool) → List α → List (Outcome α)
  | _, [] => []
  | q, a :: as => (access join n q a).2 :: outcomes (access join n q a).1 as

end access

/-! ## Evictions -/

section evict

variable {q pre post : List (α × Bool)} {p : α}

@[simp] theorem pages_append (q q' : List (α × Bool)) : pages (q ++ q') = pages q ++ pages q' :=
  List.map_append

@[simp] theorem pages_cons (e : α × Bool) (q : List (α × Bool)) : pages (e :: q) = e.1 :: pages q :=
  rfl

@[simp] theorem pages_nil : pages ([] : List (α × Bool)) = [] := rfl

@[simp] theorem pages_clear (q : List (α × Bool)) : pages (clear q) = pages q := by
  rw [pages, clear, List.map_map]
  rfl

/-- A queue has a bit for each page. -/
theorem length_pages (q : List (α × Bool)) : (pages q).length = q.length := List.length_map ..

/-- The pages whose bits are set go to the back. -/
theorem examine_append (hpre : ∀ e ∈ pre, e.2 = true) (fuel : ℕ) (q : List (α × Bool)) :
    examine (pre.length + fuel) (pre ++ q) = examine fuel (q ++ clear pre) := by
  induction pre generalizing q with
  | nil =>
    rw [List.length_nil, Nat.zero_add, clear, List.map_nil, List.append_nil, List.nil_append]
  | cons e pre ih =>
    obtain ⟨p, b⟩ := e
    obtain rfl : b = true := hpre _ List.mem_cons_self
    rw [List.length_cons, Nat.add_right_comm, List.cons_append, examine, List.append_assoc,
      ih fun e he => hpre e (List.mem_cons_of_mem _ he), List.append_assoc]
    rfl

/-- The page `p` is the first whose bit is clear. -/
def FirstClear (q : List (α × Bool)) (p : α) : Prop :=
  ∃ pre post, q = pre ++ (p, false) :: post ∧ ∀ e ∈ pre, e.2 = true

/-- The page `p` is the first whose bit is clear, or the first one if all bits are set. -/
def IsVictim (q : List (α × Bool)) (p : α) : Prop :=
  FirstClear q p ∨ (pages q).head? = some p ∧ ∀ e ∈ q, e.2 = true

/-- A queue that is not empty has a victim. -/
theorem exists_isVictim (hq : q ≠ []) : ∃ p, IsVictim q p := by
  by_cases hset : ∀ e ∈ q, e.2 = true
  · obtain ⟨e, q, rfl⟩ := List.exists_cons_of_ne_nil hq
    exact ⟨e.1, .inr ⟨rfl, hset⟩⟩
  · obtain ⟨⟨p, b⟩, hfind⟩ : ∃ e, q.find? (!·.2) = some e := by
      rw [← Option.isSome_iff_exists, List.find?_isSome]
      simpa using hset
    obtain ⟨hb, pre, post, rfl, hpre⟩ := List.find?_eq_some_iff_append.1 hfind
    obtain rfl : b = false := by simpa using hb
    exact ⟨p, .inl ⟨pre, post, rfl, fun e he => by simpa using hpre e he⟩⟩

/-- The first page with a clear bit is evicted, and the pages before it come last, with their bits
    cleared. -/
theorem evict_append (hpre : ∀ e ∈ pre, e.2 = true) :
    evict (pre ++ (p, false) :: post) = some (p, post ++ clear pre) := by
  have hfuel : (pre ++ (p, false) :: post).length + 1 = pre.length + (post.length + 1 + 1) := by
    rw [List.length_append, List.length_cons, Nat.add_assoc]
  rw [evict, hfuel, examine_append hpre, List.cons_append, examine]

/-- If all bits are set, they are cleared, and the first page is evicted. -/
theorem evict_cons {b : Bool} (hset : ∀ e ∈ (p, b) :: q, e.2 = true) :
    evict ((p, b) :: q) = some (p, clear q) := by
  have := examine_append hset 1 []
  rw [List.append_nil, List.nil_append] at this
  rw [evict, this, clear, List.map_cons, examine, ← clear]

/-- What is evicted: the pages are rotated to the victim. -/
theorem evict_eq_some (h : IsVictim q p) :
    ∃ rest A B, evict q = some (p, rest) ∧ pages q = A ++ p :: B ∧ pages rest = B ++ A := by
  rcases h with ⟨pre, post, rfl, hpre⟩ | ⟨hhead, hset⟩
  · exact ⟨_, pages pre, pages post, evict_append hpre, by simp, by simp⟩
  · obtain ⟨⟨p', b⟩, q, rfl⟩ := List.exists_cons_of_ne_nil (l := q) (by
      rintro rfl
      cases hhead)
    obtain rfl : p' = p := Option.some.inj hhead
    exact ⟨_, [], pages q, evict_cons hset, by simp, by simp⟩

/-- There is one victim only. -/
theorem IsVictim.unique {p' : α} (h : IsVictim q p) (h' : IsVictim q p') : p = p' := by
  obtain ⟨rest, A, B, heq, -⟩ := evict_eq_some h
  obtain ⟨rest', A', B', heq', -⟩ := evict_eq_some h'
  exact (Prod.mk.inj (Option.some.inj (heq.symm.trans heq'))).1

end evict

@[simp] theorem pages_mark [DecidableEq α] (a : α) (q : List (α × Bool)) :
    pages (mark a q) = pages q := by
  rw [pages, mark, List.map_map]
  rfl

/-! ## The trail of the hand -/

/-- What the hand of a ring has done to the bits of its pages where the queue does otherwise. -/
structure Trail (α : Type*) where
  /-- A page has been evicted. -/
  evicted : Bool
  /-- The pages whose bit the hand has taken while they were the newest, not accessed since. -/
  taken : List α
  /-- The pages whose bit the hand has left set when all clear bits were taken ones, not accessed
      since. -/
  left : List α

namespace Trail

/-- The hand has not moved. -/
def start : Trail α := ⟨false, [], []⟩

/-- From the page after the front on, the first clear bit is that of `p`, and was not taken. No bit
    before it was left. -/
def Passes (t : Trail α) (ring : List (α × Bool)) (p : α) : Prop :=
  p ∉ t.taken ∧ ∃ pre post, ring.tail = pre ++ (p, false) :: post ∧ ∀ e ∈ pre, e.2 = true ∧ e.1 ∉ t.left

/-- The bit after the front is clear, all clear bits were taken, and none was left. -/
def Wraps (t : Trail α) (ring : List (α × Bool)) : Prop :=
  ring.tail.head?.map Prod.snd = some false ∧
    ∀ e ∈ ring.tail, e.1 ∉ t.left ∧ (e.2 = false → e.1 ∈ t.taken)

/-- An eviction of the ring is in time: it is the first one, or the memory has one page, or the bits of
    the pages after the front, which is the newest page, are as in `Passes` or `Wraps`. -/
def InTime (t : Trail α) (ring : List (α × Bool)) : Prop :=
  t.evicted = false ∨ ring.tail = [] ∨ (∃ p, t.Passes ring p) ∨ t.Wraps ring

/-- A bit that the hand passes was not taken. -/
theorem Passes.not_wraps {t : Trail α} {ring : List (α × Bool)} {p : α} (h : t.Passes ring p) :
    ¬t.Wraps ring := by
  obtain ⟨hp, pre, post, hr, hpre⟩ := h
  rintro ⟨hhead, hall⟩
  rw [hr] at hhead hall
  cases pre with
  | nil => exact hp ((hall _ List.mem_cons_self).2 rfl)
  | cons e pre =>
    rw [List.cons_append, List.head?_cons, Option.map_some, (hpre e List.mem_cons_self).1] at hhead
    cases hhead

variable [DecidableEq α]

instance (t : Trail α) (ring : List (α × Bool)) : Decidable (t.Wraps ring) :=
  inferInstanceAs (Decidable (_ ∧ _))

/-- The hand takes the bit of the newest page, except at the first eviction, where it takes them all. -/
def evict (t : Trail α) (ring : List (α × Bool)) : Trail α :=
  if t.evicted = false then { evicted := true, taken := [], left := [] }
  else if t.Wraps ring then
    { evicted := true, taken := [], left := pages (ring.tail.filter Prod.snd) }
  else { t with taken := pages (ring.take 1) ++ t.taken }

/-- The page has been accessed. -/
def drop (t : Trail α) (a : α) : Trail α :=
  { t with taken := t.taken.filter (· ≠ a), left := t.left.filter (· ≠ a) }

/-- An access to a ring of capacity `n`. -/
def access (n : ℕ) (t : Trail α) (ring : List (α × Bool)) (a : α) : Trail α :=
  (if a ∉ pages ring ∧ ring.length = n then t.evict ring else t).drop a

/-- A page with the bit that the queue has. -/
def due (t : Trail α) (e : α × Bool) : α × Bool :=
  (e.1, (e.2 || e.1 ∈ t.taken) && e.1 ∉ t.left)

variable {t : Trail α} {a b p : α} {e : α × Bool} {r : List (α × Bool)}

@[simp] theorem mem_taken_drop : b ∈ (t.drop a).taken ↔ b ∈ t.taken ∧ b ≠ a := by
  simp [drop]

@[simp] theorem mem_left_drop : b ∈ (t.drop a).left ↔ b ∈ t.left ∧ b ≠ a := by
  simp [drop]

@[simp] theorem pages_map_due : pages (r.map t.due) = pages r := by
  rw [pages, List.map_map]
  rfl

@[simp] theorem evicted_evict (t : Trail α) (ring : List (α × Bool)) :
    (t.evict ring).evicted = true := by
  rw [evict]
  split
  · rfl
  · split
    · rfl
    · exact Bool.eq_true_of_not_eq_false ‹_›

/-- The bits the queue should have. -/
theorem due_snd : (t.due e).2 = true ↔ (e.2 = true ∨ e.1 ∈ t.taken) ∧ e.1 ∉ t.left := by
  simp [due]

/-- A page that is dropped is forgotten. -/
theorem due_drop (h : e.1 ≠ a) : (t.drop a).due e = t.due e := by
  simp [due, h]

/-- An access sets the bit of the page in both. -/
theorem due_mark (e : α × Bool) :
    (t.drop a).due (e.1, e.2 || e.1 = a) = ((t.due e).1, (t.due e).2 || (t.due e).1 = a) := by
  by_cases h : e.1 = a
  · simp [due, h]
  · simp [due, h]

end Trail

/-! ## The ring and the queue -/

section ring

variable [DecidableEq α]

/-- The ring and the queue are the same, with all bits set, or the newest page is at the front of the
    one and at the back of the other, and the memory is full. The trail tells the bits of the queue. -/
inductive Rel (n : ℕ) : Trail α → List (α × Bool) → List (α × Bool) → Prop
  | filling {q} (hset : ∀ e ∈ q, e.2 = true) : Rel n .start q q
  | turned {t r a} (hevicted : t.evicted = true) (htaken : ∀ e ∈ r, e.1 ∈ t.taken → e.2 = false)
      (hleft : ∀ e ∈ r, e.1 ∈ t.left → e.2 = true) (ha : a ∉ t.left) (hn : r.length + 1 = n) :
      Rel n t ((a, true) :: r) (r.map t.due ++ [(a, true)])

namespace Rel

variable {n : ℕ} {t : Trail α} {ring q : List (α × Bool)} {p : α}

/-- The ring and the queue have the same pages. -/
theorem perm (h : Rel n t ring q) : (pages ring).Perm (pages q) := by
  cases h with
  | filling => exact .refl _
  | turned =>
    rw [pages_cons, pages_append, Trail.pages_map_due]
    exact (List.perm_append_singleton _ _).symm

/-- A page after the front that is the victim of both. -/
theorem passes_or_wraps {r : List (α × Bool)} {a : α}
    (hleft : ∀ e ∈ r, e.1 ∈ t.left → e.2 = true)
    (hnd : (pages (r.map t.due ++ [(a, true)])).Nodup) (hr : FirstClear r p)
    (hq : IsVictim (r.map t.due ++ [(a, true)]) p) :
    t.Passes ((a, true) :: r) p ∨ t.Wraps ((a, true) :: r) := by
  obtain ⟨pre, post, rfl, hpre⟩ := hr
  rw [List.map_append, List.map_cons, List.append_assoc, List.cons_append] at hnd hq
  rcases hq with ⟨pre', post', hsplit, hpre'⟩ | ⟨hhead, hset⟩
  · -- The page splits the queue at the same place.
    have hp : t.due (p, false) = (p, false) := by
      refine List.inj_on_of_nodup_map hnd (by simp) ?_ rfl
      rw [hsplit]
      simp
    rw [hp] at hsplit
    rw [hp, pages_append, pages_cons, List.nodup_middle, List.nodup_cons, List.mem_append,
      not_or] at hnd
    obtain ⟨rfl, -, -⟩ := (List.append_cons_inj_of_notMem
      (fun h => hnd.1.1 (List.mem_map_of_mem h)) fun h => hnd.1.2 (List.mem_map_of_mem h)).1 hsplit
    have hpl : p ∉ t.left := fun h =>
      Bool.false_ne_true (hleft (p, false) (List.mem_append_right _ List.mem_cons_self) h)
    refine .inl ⟨fun h => ?_, pre, post, rfl, fun e he => ⟨hpre e he, ?_⟩⟩
    · have := (Trail.due_snd (e := (p, false))).2 ⟨.inr h, hpl⟩
      rw [hp] at this
      cases this
    · exact (Trail.due_snd.1 (hpre' _ (List.mem_map_of_mem he))).2
  · -- The page is the first one of the queue, whose bits are all set.
    obtain rfl : pre = [] := by
      cases pre with
      | nil => rfl
      | cons e pre =>
        obtain rfl : e.1 = p := Option.some.inj hhead
        rw [List.map_cons, List.cons_append, pages_cons, pages_append, pages_cons] at hnd
        exact absurd (by simp [Trail.due]) (List.nodup_cons.1 hnd).1
    refine .inr ⟨rfl, fun e he => ?_⟩
    have hmem : t.due e ∈ ((p, false) :: post).map t.due := List.mem_map_of_mem he
    have hdue := Trail.due_snd.1 (hset (t.due e) (List.mem_append_left [(a, true)] hmem))
    exact ⟨hdue.2, fun h => hdue.1.resolve_left (by simp [h])⟩

/-- A ring in time has the victim of the queue. -/
theorem inTime_iff (h : Rel n t ring q) (hnd : (pages q).Nodup) (hne : q ≠ []) :
    t.InTime ring ↔ ∃ p, IsVictim ring p ∧ IsVictim q p := by
  cases h with
  | filling =>
    obtain ⟨p, hp⟩ := exists_isVictim hne
    exact ⟨fun _ => ⟨p, hp, hp⟩, fun _ => .inl rfl⟩
  | @turned _ r a hevicted htaken hleft ha hn =>
    constructor
    · rintro (hfirst | hone | ⟨p, hp, pre, post, hr, hpre⟩ | ⟨hhead, hr⟩)
      · rw [hevicted] at hfirst
        cases hfirst
      · obtain rfl : r = [] := hone
        exact ⟨a, .inr ⟨rfl, by simp⟩, .inr ⟨rfl, by simp⟩⟩
      · rw [List.tail_cons] at hr
        subst hr
        refine ⟨p, .inl ⟨(a, true) :: pre, post, rfl, fun e he => ?_⟩,
          .inl ⟨pre.map t.due, post.map t.due ++ [(a, true)], ?_, fun e he => ?_⟩⟩
        · rcases List.mem_cons.1 he with rfl | he
          · rfl
          · exact (hpre e he).1
        · simp [Trail.due, hp]
        · obtain ⟨e, hmem, rfl⟩ := List.mem_map.1 he
          exact Trail.due_snd.2 ⟨.inl (hpre e hmem).1, (hpre e hmem).2⟩
      · rw [List.tail_cons] at hhead hr
        obtain _ | ⟨⟨p, b⟩, post⟩ := r
        · cases hhead
        obtain rfl : b = false := Option.some.inj hhead
        refine ⟨p, .inl ⟨[(a, true)], post, rfl, by simp⟩, .inr ⟨rfl, fun e he => ?_⟩⟩
        rcases List.mem_append.1 he with he | he
        · obtain ⟨e, hmem, rfl⟩ := List.mem_map.1 he
          refine Trail.due_snd.2 ⟨?_, (hr e hmem).1⟩
          exact (Bool.eq_false_or_eq_true e.2).imp_right (hr e hmem).2
        · rw [List.mem_singleton.1 he]
    · rintro ⟨p, ⟨pre, post, hsplit, hpre⟩ | ⟨hhead, -⟩, hp⟩
      · cases pre with
        | nil => cases hsplit
        | cons e pre =>
          have hr : FirstClear r p := ⟨pre, post, (List.cons.inj hsplit).2,
            fun e he => hpre e (List.mem_cons_of_mem _ he)⟩
          exact .inr (.inr ((passes_or_wraps hleft hnd hr hp).imp_left fun h => ⟨p, h⟩))
      · -- The newest page comes last in the queue, and its bit is set.
        obtain rfl : a = p := Option.some.inj hhead
        rw [pages_append, List.nodup_append_comm] at hnd
        have ha' : a ∉ pages (r.map t.due) := (List.nodup_cons.1 hnd).1
        rcases hp with ⟨pre, post, hsplit, -⟩ | ⟨hhead', -⟩
        · have hmem : (a, false) ∈ r.map t.due ++ [(a, true)] := by
            rw [hsplit]
            simp
          rw [List.mem_append, List.mem_singleton] at hmem
          rcases hmem with hmem | hmem
          · exact absurd (List.mem_map_of_mem hmem) ha'
          · cases hmem
        · cases r with
          | nil => exact .inr (.inl rfl)
          | cons e r => exact absurd (Option.some.inj hhead' ▸ List.mem_cons_self) ha'

/-- The new page joins the front of the ring and the back of the queue. -/
theorem join {r q : List (α × Bool)} {x : α} (hevicted : t.evicted = true)
    (hr : ∀ e ∈ r, (e.1 ∈ t.taken → e.2 = false) ∧ (e.1 ∈ t.left → e.2 = true))
    (hq : r.map t.due = q) (hx : x ∉ pages r) (hn : r.length + 1 = n) :
    Rel n (t.drop x) ((x, true) :: r) (q ++ [(x, true)]) := by
  have hdue : q = r.map (t.drop x).due := by
    refine hq.symm.trans (List.map_congr_left fun e he => (Trail.due_drop ?_).symm)
    rintro rfl
    exact hx (List.mem_map_of_mem he)
  rw [hdue]
  exact .turned hevicted (fun e he h => (hr e he).1 (Trail.mem_taken_drop.1 h).1)
    (fun e he h => (hr e he).2 (Trail.mem_left_drop.1 h).1) (by simp) hn

section turned

variable {r : List (α × Bool)} {a x : α}

/-- The hand takes the bit of the newest page, and the queue does not. -/
theorem evict_passes (hevicted : t.evicted = true) (htaken : ∀ e ∈ r, e.1 ∈ t.taken → e.2 = false)
    (hleft : ∀ e ∈ r, e.1 ∈ t.left → e.2 = true) (ha : a ∉ t.left) (hnd : (a :: pages r).Nodup)
    (hx : x ∉ a :: pages r) (hn : r.length + 1 = n) (h : t.Passes ((a, true) :: r) p) :
    ∃ ring' q', SecondChance.evict ((a, true) :: r) = some (p, ring') ∧
      SecondChance.evict (r.map t.due ++ [(a, true)]) = some (p, q') ∧
      Rel n ((t.evict ((a, true) :: r)).drop x) ((x, true) :: ring') (q' ++ [(x, true)]) := by
  have htrail : t.evict ((a, true) :: r) = { t with taken := a :: t.taken } := by
    rw [Trail.evict, if_neg (by simp [hevicted]), if_neg h.not_wraps]
    rfl
  obtain ⟨hp, pre, post, hr, hpre⟩ := h
  obtain rfl : r = pre ++ (p, false) :: post := hr
  have hne : ∀ e ∈ pre ++ (p, false) :: post, e.1 ≠ a := by
    intro e he hea
    have hmem : e.1 ∈ pages (pre ++ (p, false) :: post) := List.mem_map_of_mem he
    exact (List.nodup_cons.1 hnd).1 (hea ▸ hmem)
  have hq : (pre ++ (p, false) :: post).map t.due ++ [(a, true)] =
      pre ++ (p, false) :: (post.map t.due ++ [(a, true)]) := by
    have hdue : ∀ e ∈ pre, t.due e = e := fun e he =>
      Prod.ext rfl ((Trail.due_snd.2 ⟨.inl (hpre e he).1, (hpre e he).2⟩).trans (hpre e he).1.symm)
    rw [List.map_append, List.map_congr_left hdue, List.map_id']
    simp [Trail.due, hp]
  refine ⟨post ++ clear ((a, true) :: pre), _,
    evict_append (List.forall_mem_cons.2 ⟨rfl, fun e he => (hpre e he).1⟩),
    hq ▸ evict_append fun e he => (hpre e he).1, ?_⟩
  rw [htrail]
  refine join hevicted (fun e he => ?_) ?_ ?_ ?_
  · rcases List.mem_append.1 he with he | he
    · have he' := List.mem_append_right pre (List.mem_cons_of_mem (p, false) he)
      exact ⟨fun h => htaken e he' ((List.mem_cons.1 h).resolve_left (hne e he')), hleft e he'⟩
    · obtain ⟨c, hc, rfl⟩ := List.mem_map.1 he
      refine ⟨fun _ => rfl, fun h => ?_⟩
      rcases List.mem_cons.1 hc with rfl | hc
      · exact absurd h ha
      · exact absurd h (hpre c hc).2
  · have hpost : post.map (Trail.due { t with taken := a :: t.taken }) = post.map t.due := by
      refine List.map_congr_left fun e he => ?_
      have he' := hne e (List.mem_append_right pre (List.mem_cons_of_mem (p, false) he))
      simp [Trail.due, he']
    have hclear : (clear pre).map (Trail.due { t with taken := a :: t.taken }) = clear pre := by
      rw [clear, List.map_map]
      refine List.map_congr_left fun e he => ?_
      have he' : e ∈ pre ++ (p, false) :: post := List.mem_append_left _ he
      have htk : e.1 ∉ t.taken := fun h =>
        Bool.false_ne_true ((htaken e he' h).symm.trans (hpre e he).1)
      simp [Trail.due, hne e he', htk]
    rw [List.map_append, hpost, clear, List.map_cons, List.map_cons, ← clear, hclear]
    simp [Trail.due, ha]
  · simp only [pages_append, pages_clear, pages_cons, List.mem_append, List.mem_cons] at hx ⊢
    tauto
  · rw [← hn]
    simp only [clear, List.length_append, List.length_map, List.length_cons]
    omega

/-- The queue clears all bits, and the hand that of the newest page only. -/
theorem evict_wraps (hevicted : t.evicted = true) (hnd : (a :: pages r).Nodup)
    (hx : x ∉ a :: pages r) (hn : r.length + 1 = n) (h : t.Wraps ((a, true) :: r)) :
    ∃ p ring' q', SecondChance.evict ((a, true) :: r) = some (p, ring') ∧
      SecondChance.evict (r.map t.due ++ [(a, true)]) = some (p, q') ∧
      Rel n ((t.evict ((a, true) :: r)).drop x) ((x, true) :: ring') (q' ++ [(x, true)]) := by
  have htrail : t.evict ((a, true) :: r) =
      { evicted := true, taken := [], left := pages (r.filter Prod.snd) } := by
    rw [Trail.evict, if_neg (by simp [hevicted]), if_pos h]
    rfl
  obtain ⟨hhead, hall⟩ := h
  rw [List.tail_cons] at hhead hall
  obtain _ | ⟨⟨p, b⟩, post⟩ := r
  · cases hhead
  obtain rfl : b = false := Option.some.inj hhead
  have hset : ∀ e ∈ ((p, false) :: post).map t.due ++ [(a, true)], e.2 = true := by
    intro e he
    rcases List.mem_append.1 he with he | he
    · obtain ⟨c, hc, rfl⟩ := List.mem_map.1 he
      exact Trail.due_snd.2 ⟨(Bool.eq_false_or_eq_true c.2).imp_right (hall c hc).2, (hall c hc).1⟩
    · rw [List.mem_singleton.1 he]
  -- The bits left are the bits set after the front.
  have hleft : ∀ e ∈ post, e.1 ∈ pages (((p, false) :: post).filter Prod.snd) ↔ e.2 = true := by
    intro e he
    have hmem := List.mem_cons_of_mem (p, false) he
    refine ⟨fun h => ?_, fun h => List.mem_map_of_mem (List.mem_filter.2 ⟨hmem, h⟩)⟩
    obtain ⟨c, hc, hce⟩ := List.mem_map.1 h
    rw [List.mem_filter] at hc
    rw [← List.inj_on_of_nodup_map (List.nodup_cons.1 hnd).2 hc.1 hmem hce]
    exact hc.2
  have ha : a ∉ pages (((p, false) :: post).filter Prod.snd) := fun h =>
    (List.nodup_cons.1 hnd).1 ((List.filter_sublist.map Prod.fst).subset h)
  have hfront : ∀ e ∈ [(a, true)], e.2 = true := by simp
  refine ⟨p, post ++ clear [(a, true)], clear post ++ clear [(a, true)], evict_append hfront, ?_, ?_⟩
  · rw [List.map_cons, List.cons_append] at hset ⊢
    refine (evict_cons hset).trans ?_
    rw [clear, List.map_append, List.map_map]
    rfl
  · rw [htrail]
    refine join rfl (fun e he => ⟨fun h => absurd h List.not_mem_nil, fun h => ?_⟩) ?_ ?_ ?_
    · rcases List.mem_append.1 he with he | he
      · exact (hleft e he).1 h
      · rw [List.mem_singleton.1 he] at h
        exact absurd h ha
    · rw [List.map_append]
      refine congrArg₂ _ (List.map_congr_left fun e he => Prod.ext rfl ?_) ?_
      · have := hleft e he
        cases hb : e.2 <;> simp_all [Trail.due]
      · simp [Trail.due, clear]
    · simp only [pages_append, pages_clear, pages_cons, pages_nil, List.mem_append,
        List.mem_cons] at hx ⊢
      tauto
    · rw [← hn]
      simp [clear]

end turned

/-- An eviction in time is one of the same page, and the new page takes its place in the ring. -/
theorem evict {x : α} (h : Rel n t ring q) (hnd : (pages q).Nodup) (hn : q.length = n)
    (htime : t.InTime ring) (hne : q ≠ []) (hx : x ∉ pages q) :
    ∃ p ring' q', SecondChance.evict ring = some (p, ring') ∧
      SecondChance.evict q = some (p, q') ∧
      Rel n ((t.evict ring).drop x) ((x, true) :: ring') (q' ++ [(x, true)]) := by
  cases h with
  | filling hset =>
    obtain ⟨⟨p, b⟩, q, rfl⟩ := List.exists_cons_of_ne_nil hne
    refine ⟨p, clear q, clear q, evict_cons hset, evict_cons hset, join rfl ?_ ?_ ?_ ?_⟩
    · exact fun e _ => ⟨fun h => absurd h List.not_mem_nil, fun h => absurd h List.not_mem_nil⟩
    · rw [clear, List.map_map]
      exact List.map_congr_left fun e _ => by simp [Trail.due, Trail.evict, Trail.start]
    · rw [pages_clear]
      exact fun h => hx (List.mem_cons_of_mem _ h)
    · rw [← hn, clear, List.length_map, List.length_cons]
  | @turned _ r a hevicted htaken hleft ha hn' =>
    have hperm : (pages (r.map t.due ++ [(a, true)])).Perm (a :: pages r) := by
      rw [pages_append, Trail.pages_map_due]
      exact List.perm_append_singleton _ _
    have hnd' := hperm.nodup_iff.1 hnd
    have hx' := mt hperm.mem_iff.2 hx
    rcases htime with hfirst | hone | ⟨p, hpasses⟩ | hwraps
    · rw [hevicted] at hfirst
      cases hfirst
    · -- A memory of one page.
      obtain rfl : r = [] := hone
      refine ⟨a, [], [], evict_cons (by simp), evict_cons (by simp), join ?_ ?_ rfl ?_ hn'⟩
      · rw [Trail.evicted_evict]
      · exact fun e he => absurd he List.not_mem_nil
      · exact List.not_mem_nil
    · exact ⟨p, evict_passes hevicted htaken hleft ha hnd' hx' hn' hpasses⟩
    · exact evict_wraps hevicted hnd' hx' hn' hwraps

/-- A page in memory is referenced. -/
theorem mark (h : Rel n t ring q) (a : α) :
    Rel n (t.drop a) (mark a ring) (mark a q) := by
  cases h with
  | filling hset =>
    refine .filling fun e he => ?_
    obtain ⟨e', he', rfl⟩ := List.mem_map.1 he
    dsimp only
    rw [hset e' he', Bool.true_or]
  | @turned _ r c hevicted htaken hleft ha hn =>
    have hmark : SecondChance.mark a (r.map t.due ++ [(c, true)]) =
        (SecondChance.mark a r).map (t.drop a).due ++ [(c, true)] := by
      simp only [SecondChance.mark, List.map_append, List.map_map, List.map_singleton, Bool.true_or]
      refine congrArg (· ++ _) (List.map_congr_left fun e _ => (Trail.due_mark e).symm)
    rw [hmark]
    refine .turned hevicted (fun e he h => ?_) (fun e he h => ?_) (fun h => ?_) ?_
    · obtain ⟨c, hc, rfl⟩ := List.mem_map.1 he
      rw [Trail.mem_taken_drop] at h
      simp [htaken c hc h.1, h.2]
    · obtain ⟨c, hc, rfl⟩ := List.mem_map.1 he
      rw [Trail.mem_left_drop] at h
      simp [hleft c hc h.1]
    · exact ha (Trail.mem_left_drop.1 h).1
    · rwa [List.length_map]

end Rel

end ring

section runs

variable [DecidableEq α] {n : ℕ} {t : Trail α} {ring q : List (α × Bool)} {a : α}

/-- The queue after an access. -/
theorem access_pages (hnd : (pages q).Nodup) (hn : q.length ≤ n) (h0 : 0 < n) :
    (pages (access joinBack n q a).1).Nodup ∧ (access joinBack n q a).1.length ≤ n := by
  by_cases ha : a ∈ pages q
  · rw [access, if_pos ha, pages_mark, mark, List.length_map]
    exact ⟨hnd, hn⟩
  rw [access, if_neg ha]
  by_cases hlt : q.length < n
  · rw [if_pos hlt, pages_append, List.nodup_append_comm, List.length_append]
    exact ⟨List.nodup_cons.2 ⟨ha, hnd⟩, hlt⟩
  · have hne : q ≠ [] := List.ne_nil_of_length_pos (h0.trans_le (not_lt.1 hlt))
    obtain ⟨p, hp⟩ := exists_isVictim hne
    obtain ⟨rest, A, B, heq, hA, hB⟩ := evict_eq_some hp
    rw [if_neg hlt, heq]
    have hperm : (p :: pages rest).Perm (pages q) := by
      rw [hA, hB]
      exact (List.perm_middle.trans (List.perm_append_comm.cons p)).symm
    have hlen := hperm.length_eq
    rw [List.length_cons, length_pages, length_pages] at hlen
    have hrest := List.nodup_cons.1 (hperm.nodup_iff.2 hnd)
    refine ⟨?_, ?_⟩
    · change (pages (rest ++ [(a, true)])).Nodup
      rw [pages_append, List.nodup_append_comm]
      exact List.nodup_cons.2 ⟨fun h => ha (hperm.mem_iff.1 (List.mem_cons_of_mem _ h)), hrest.2⟩
    · change (rest ++ [(a, true)]).length ≤ n
      rw [List.length_append, List.length_singleton]
      omega

/-- An access has the same outcome on a ring in time, and only on one. -/
theorem Rel.access_iff (h : Rel n t ring q) (hnd : (pages q).Nodup) (hn : q.length ≤ n) (h0 : 0 < n)
    (a : α) :
    ((access joinFront n ring a).2 = (access joinBack n q a).2 ↔
      (a ∉ pages ring → ring.length = n → t.InTime ring)) ∧
    ((access joinFront n ring a).2 = (access joinBack n q a).2 →
      Rel n (t.access n ring a) (access joinFront n ring a).1 (access joinBack n q a).1) := by
  -- The ring and the queue have the same pages.
  have hlen : ring.length = q.length := by
    rw [← length_pages, h.perm.length_eq, length_pages]
  have hmem : a ∈ pages ring ↔ a ∈ pages q := h.perm.mem_iff
  rw [Trail.access, hlen]
  by_cases ha : a ∈ pages q
  · have ha' := hmem.2 ha
    rw [access, access, if_pos ha, if_pos ha', if_neg fun h => h.1 ha']
    exact ⟨by simp [ha'], fun _ => h.mark a⟩
  have ha' := mt hmem.1 ha
  rw [access, access, if_neg ha, if_neg ha', hlen]
  by_cases hlt : q.length < n
  · rw [if_pos hlt, if_pos hlt, if_neg fun h => hlt.ne h.2]
    refine ⟨by simp [hlt.ne], fun _ => ?_⟩
    cases h with
    | filling hset =>
      refine .filling fun e he => ?_
      rcases List.mem_append.1 he with he | he
      · exact hset e he
      · rw [List.mem_singleton.1 he]
    | turned _ _ _ _ hn' =>
      rw [List.length_append, List.length_map, List.length_singleton] at hlt
      exact absurd hn' hlt.ne
  · -- A page is evicted from both: the outcomes are the same if it is the same page.
    have hfull : q.length = n := le_antisymm hn (not_lt.1 hlt)
    have hne : q ≠ [] := List.ne_nil_of_length_pos (hfull ▸ h0)
    obtain ⟨p, hp⟩ := exists_isVictim hne
    obtain ⟨p', hp'⟩ := exists_isVictim (q := ring)
      (List.ne_nil_of_length_pos (hlen ▸ hfull ▸ h0))
    obtain ⟨rest, -, -, heq, -⟩ := evict_eq_some hp
    obtain ⟨rest', -, -, heq', -⟩ := evict_eq_some hp'
    rw [if_neg hlt, if_neg hlt, heq, heq', if_pos ⟨ha', hfull⟩]
    have hiff : Outcome.fault (some p') = Outcome.fault (some p) ↔ t.InTime ring := by
      rw [h.inTime_iff hnd hne]
      constructor
      · intro ho
        obtain rfl : p' = p := by simpa using ho
        exact ⟨p', hp', hp⟩
      · rintro ⟨c, hc, hc'⟩
        rw [hp'.unique hc, hp.unique hc']
    refine ⟨hiff.trans ⟨fun h _ _ => h, fun h => h ha' hfull⟩, fun ho => ?_⟩
    obtain ⟨c, ring', q', hring, hq, hrel⟩ := h.evict hnd hfull (hiff.1 ho) hne ha
    obtain ⟨-, rfl⟩ := Prod.mk.inj (Option.some.inj (hring.symm.trans heq'))
    obtain ⟨-, rfl⟩ := Prod.mk.inj (Option.some.inj (hq.symm.trans heq))
    exact hrel

/-- Each eviction of the run is in time. -/
def Timely (n : ℕ) : Trail α → List (α × Bool) → List α → Prop
  | _, _, [] => True
  | t, ring, a :: as => (a ∉ pages ring → ring.length = n → t.InTime ring) ∧
      Timely n (t.access n ring a) (access joinFront n ring a).1 as

/-- A ring has the outcomes of the queue exactly if its evictions are in time. -/
theorem Rel.outcomes_eq_iff (h : Rel n t ring q) (hnd : (pages q).Nodup) (hn : q.length ≤ n)
    (h0 : 0 < n) (as : List α) :
    outcomes joinFront n ring as = outcomes joinBack n q as ↔ Timely n t ring as := by
  induction as generalizing t ring q with
  | nil => exact ⟨fun _ => trivial, fun _ => rfl⟩
  | cons a as ih =>
    obtain ⟨hiff, hrel⟩ := h.access_iff hnd hn h0 a
    obtain ⟨hnd', hn'⟩ := access_pages (a := a) hnd hn h0
    rw [outcomes, outcomes, List.cons_eq_cons, Timely, ← hiff]
    refine and_congr_right fun ho => ?_
    exact ih (hrel ho) hnd' hn'

end runs

end Mcpq.SecondChance
