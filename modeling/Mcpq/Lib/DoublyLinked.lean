import Mcpq.Lib.Java

/-!
# Doubly linked lists

Nodes `α` whose `next` and `prev` pointers thread some of them into a list. A *segment*
(`Segment`) reads a list of nodes off the pointers, between a predecessor and a successor; a
*doubly linked list* (`DList`) is a segment between `null` and `null`, known by its head and its
tail. A tail is only meaningful when the list is not empty.

* `DList.erase` and `DList.cons`: what the pointers must become for a node to be unlinked or
  pushed at the head. The new pointers are only described on the nodes of the list, so that lists
  without a node in common do not interfere (`DList.congr`);
* `walk`: the iteration from the head along `next` (`DList.walk_eq`);
* `scanEnds`: the iteration from both ends towards the middle, which visits every node
  (`DList.scanEnds_eq`).
-/

namespace Mcpq

variable {α β : Type*}

/-- The nodes `l` follow each other between `p` and `n`. -/
def Segment (next prev : α → Option α) : Option α → List α → Option α → Prop
  | _, [], _ => True
  | p, a :: l, n => prev a = p ∧ next a = l.head?.or n ∧ Segment next prev (some a) l n

section Segment

variable {next prev next' prev' : α → Option α} {p n : Option α} {l : List α}

theorem segment_append {l₁ l₂ : List α} :
    Segment next prev p (l₁ ++ l₂) n ↔
      Segment next prev p l₁ (l₂.head?.or n) ∧ Segment next prev (l₁.getLast?.or p) l₂ n := by
  induction l₁ generalizing p with
  | nil => simp [Segment]
  | cons a l₁ ih =>
    have hlast : (a :: l₁).getLast?.or p = l₁.getLast?.or (some a) := by
      cases h : l₁.getLast? <;> simp [List.getLast?_cons, h]
    have hhead : (l₁ ++ l₂).head?.or n = l₁.head?.or (l₂.head?.or n) := by
      rw [List.head?_append, Option.or_assoc]
    rw [List.cons_append, Segment, Segment, ih, hlast, hhead]
    tauto

/-- A segment only depends on the pointers of its nodes. -/
theorem Segment.congr (h : Segment next prev p l n) (hn : ∀ a ∈ l, next' a = next a)
    (hp : ∀ a ∈ l, prev' a = prev a) : Segment next' prev' p l n := by
  induction l generalizing p with
  | nil => trivial
  | cons a l ih =>
    obtain ⟨h₁, h₂, h₃⟩ := h
    refine ⟨(hp a List.mem_cons_self).trans h₁, (hn a List.mem_cons_self).trans h₂, ?_⟩
    exact ih h₃ (fun b hb => hn b (List.mem_cons_of_mem _ hb))
      (fun b hb => hp b (List.mem_cons_of_mem _ hb))

/-- Redirecting the first node of a segment to another predecessor. -/
theorem Segment.congr_prev (h : Segment next prev p l n) (q : Option α)
    (hn : ∀ a ∈ l, next' a = next a) (hp : ∀ a ∈ l.tail, prev' a = prev a)
    (hq : ∀ a, l.head? = some a → prev' a = q) : Segment next' prev' q l n := by
  cases l with
  | nil => trivial
  | cons a l =>
    obtain ⟨_, h₂, h₃⟩ := h
    refine ⟨hq a rfl, (hn a List.mem_cons_self).trans h₂, h₃.congr ?_ hp⟩
    exact fun b hb => hn b (List.mem_cons_of_mem _ hb)

/-- Redirecting the last node of a segment to another successor. -/
theorem Segment.congr_next (h : Segment next prev p l n) (m : Option α)
    (hn : ∀ a ∈ l.dropLast, next' a = next a) (hp : ∀ a ∈ l, prev' a = prev a)
    (hm : ∀ a, l.getLast? = some a → next' a = m) : Segment next' prev' p l m := by
  rcases List.eq_nil_or_concat l with rfl | ⟨l, a, rfl⟩
  · trivial
  · rw [List.concat_eq_append] at *
    rw [segment_append] at h ⊢
    rw [List.dropLast_concat] at hn
    refine ⟨h.1.congr hn fun b hb => hp b (List.mem_append_left _ hb), ?_, ?_, trivial⟩
    · exact (hp a (by simp)).trans h.2.1
    · exact hm a (by simp)

theorem Segment.next_getElem (h : Segment next prev p l none) (i : ℕ) (hi : i < l.length) :
    next l[i] = l[i + 1]? := by
  induction l generalizing p i with
  | nil => exact absurd hi (Nat.not_lt_zero _)
  | cons a l ih =>
    obtain ⟨_, h₂, h₃⟩ := h
    cases i with
    | zero => simpa [List.head?_eq_getElem?] using h₂
    | succ i => simpa using ih h₃ i (Nat.lt_of_succ_lt_succ hi)

theorem Segment.prev_getElem_succ (h : Segment next prev p l n) (i : ℕ) (hi : i + 1 < l.length) :
    prev l[i + 1] = l[i]? := by
  induction l generalizing p i with
  | nil => exact absurd hi (Nat.not_lt_zero _)
  | cons a l ih =>
    obtain ⟨_, _, h₃⟩ := h
    cases i with
    | zero =>
      cases l with
      | nil => simp at hi
      | cons b l => simpa using h₃.1
    | succ i => simpa using ih h₃ i (Nat.lt_of_succ_lt_succ hi)

end Segment

/-- The nodes `l` form a doubly linked list from `head` to `tail`. -/
structure DList (next prev : α → Option α) (head tail : Option α) (l : List α) : Prop where
  nodup : l.Nodup
  segment : Segment next prev none l none
  head_eq : head = l.head?
  tail_eq : l ≠ [] → tail = l.getLast?

namespace DList

variable {next prev next' prev' : α → Option α} {head tail : Option α} {l : List α}

theorem nil (h : head = none) : DList next prev head tail [] :=
  ⟨List.nodup_nil, trivial, h, fun h => absurd rfl h⟩

/-- A list whose nodes are all the node `o` points to has no other. -/
theorem eq_singleton (h : DList next prev head tail l) (hne : l ≠ []) {o : Option α}
    (ho : ∀ a ∈ l, o = some a) : ∃ a, o = some a ∧ l = [a] := by
  obtain ⟨a, l', rfl⟩ := List.exists_cons_of_ne_nil hne
  have ha := ho a List.mem_cons_self
  have hl' : l' = [] := List.eq_nil_iff_forall_not_mem.2 fun b hb => by
    have hab := ha.symm.trans (ho b (List.mem_cons_of_mem a hb))
    exact (List.nodup_cons.1 h.nodup).1 (Option.some.inj hab ▸ hb)
  exact ⟨a, ha, by rw [hl']⟩

theorem congr (h : DList next prev head tail l) (hn : ∀ a ∈ l, next' a = next a)
    (hp : ∀ a ∈ l, prev' a = prev a) : DList next' prev' head tail l :=
  ⟨h.nodup, h.segment.congr hn hp, h.head_eq, h.tail_eq⟩

/-- Pushing a node at the head. -/
theorem cons [DecidableEq α] (h : DList next prev head tail l) {a : α} (ha : a ∉ l)
    (hna : next' a = head) (hpa : prev' a = none) (hn : ∀ b ∈ l, next' b = next b)
    (hp : ∀ b ∈ l, prev' b = if head = some b then some a else prev b) :
    DList next' prev' (some a) (if head = none then some a else tail) (a :: l) := by
  refine ⟨List.nodup_cons.2 ⟨ha, h.nodup⟩, ⟨hpa, ?_, ?_⟩, rfl, fun _ => ?_⟩
  · rw [hna, h.head_eq, Option.or_none]
  · refine h.segment.congr_prev _ hn (fun b hb => ?_) fun b hb => ?_
    · -- The nodes after the old head keep their predecessor.
      rw [hp b (List.mem_of_mem_tail hb), if_neg]
      intro hb'
      rw [h.head_eq] at hb'
      cases l with
      | nil => simp at hb'
      | cons c l =>
        obtain rfl : c = b := Option.some.inj hb'
        exact (List.nodup_cons.1 h.nodup).1 hb
    · rw [hp b (List.mem_of_mem_head? hb), if_pos (h.head_eq.trans hb)]
  · cases l with
    | nil => simp [h.head_eq]
    | cons b l => rw [if_neg (by simp [h.head_eq]), h.tail_eq (by simp), List.getLast?_cons_cons]

/-- The successor of a node is the first of the nodes after it. -/
theorem next_eq (h : DList next prev head tail l) {a : α} {l₁ l₂ : List α}
    (hl : l = l₁ ++ a :: l₂) : next a = l₂.head? := by
  subst hl
  simpa using (segment_append.1 h.segment).2.2.1

/-- The predecessor of a node is the last of the nodes before it. -/
theorem prev_eq (h : DList next prev head tail l) {a : α} {l₁ l₂ : List α}
    (hl : l = l₁ ++ a :: l₂) : prev a = l₁.getLast? := by
  subst hl
  simpa using (segment_append.1 h.segment).2.1

/-- Unlinking a node: its neighbours point to each other. -/
theorem erase [DecidableEq α] (h : DList next prev head tail l) {a : α} (ha : a ∈ l)
    {head' tail' : Option α}
    (hn : ∀ b ∈ l, b ≠ a → next' b = if prev a = some b then next a else next b)
    (hp : ∀ b ∈ l, b ≠ a → prev' b = if next a = some b then prev a else prev b)
    (hhead : head' = if prev a = none then next a else head)
    (htail : l.erase a ≠ [] → tail' = if next a = none then prev a else tail) :
    DList next' prev' head' tail' (l.erase a) := by
  obtain ⟨l₁, l₂, hl⟩ := List.append_of_mem ha
  have hna := h.next_eq hl
  have hpa := h.prev_eq hl
  have hnd := h.nodup
  have hseg := h.segment
  rw [hl, segment_append] at hseg
  have hhl := h.head_eq
  have htl := h.tail_eq (by simp [hl])
  subst hl
  have ha₁ : a ∉ l₁ := fun h' => (List.nodup_append.1 hnd).2.2 a h' a (by simp) rfl
  have ha₂ : a ∉ l₂ := (List.nodup_cons.1 (List.nodup_append.1 hnd).2.1).1
  have herase : (l₁ ++ a :: l₂).erase a = l₁ ++ l₂ := by
    rw [List.erase_append_right _ ha₁, List.erase_cons_head]
  rw [herase] at htail ⊢
  have hnd' : (l₁ ++ l₂).Nodup := herase ▸ hnd.erase a
  have hdis : ∀ b ∈ l₁, b ∉ l₂ := fun b h₁ h₂ => (List.nodup_append.1 hnd').2.2 b h₁ b h₂ rfl
  have hne : ∀ b ∈ l₁ ++ l₂, b ≠ a := by
    rintro b hb rfl
    rcases List.mem_append.1 hb with hb | hb
    exacts [ha₁ hb, ha₂ hb]
  have hmem : ∀ b ∈ l₁ ++ l₂, b ∈ l₁ ++ a :: l₂ := fun b hb => by
    rcases List.mem_append.1 hb with hb | hb <;> simp [hb]
  -- In terms of the two segments, the last node of one and the first of the other are redirected.
  have hn' : ∀ b ∈ l₁ ++ l₂, next' b = if l₁.getLast? = some b then l₂.head? else next b :=
    fun b hb => by rw [hn b (hmem b hb) (hne b hb), hpa, hna]
  have hp' : ∀ b ∈ l₁ ++ l₂, prev' b = if l₂.head? = some b then l₁.getLast? else prev b :=
    fun b hb => by rw [hp b (hmem b hb) (hne b hb), hpa, hna]
  have hlast : ∀ b ∈ l₂, l₁.getLast? ≠ some b := fun b hb h' =>
    hdis b (List.mem_of_getLast? h') hb
  have hfirst : ∀ b ∈ l₁, l₂.head? ≠ some b := fun b hb h' =>
    hdis b hb (List.mem_of_head? h')
  refine ⟨hnd', segment_append.2 ⟨?_, ?_⟩, ?_, fun hne' => ?_⟩
  · -- The nodes before: only the last one is redirected.
    refine hseg.1.congr_next _ (fun b hb => ?_) (fun b hb => ?_) fun b hb => ?_
    · have hb₁ := List.mem_of_mem_dropLast hb
      rw [hn' b (List.mem_append_left _ hb₁), if_neg]
      intro hb'
      obtain ⟨m, rfl⟩ : ∃ m, l₁ = m ++ [b] := ⟨_, (List.dropLast_append_getLast? b hb').symm⟩
      rw [List.dropLast_concat] at hb
      exact (List.nodup_append.1 (List.nodup_append.1 hnd').1).2.2 b hb b (by simp) rfl
    · rw [hp' b (List.mem_append_left _ hb), if_neg (hfirst b hb)]
    · rw [hn' b (List.mem_append_left _ (List.mem_of_getLast? hb)), if_pos hb, Option.or_none]
  · -- The nodes after: only the first one is redirected.
    refine hseg.2.2.2.congr_prev _ (fun b hb => ?_) (fun b hb => ?_) fun b hb => ?_
    · rw [hn' b (List.mem_append_right _ hb), if_neg (hlast b hb)]
    · have hb₂ := List.mem_of_mem_tail hb
      rw [hp' b (List.mem_append_right _ hb₂), if_neg]
      intro hb'
      cases l₂ with
      | nil => simp at hb'
      | cons c l₂ =>
        obtain rfl : c = b := Option.some.inj hb'
        exact (List.nodup_cons.1 (List.nodup_append.1 hnd').2.1).1 hb
    · rw [hp' b (List.mem_append_right _ (List.mem_of_head? hb)), if_pos hb, Option.or_none]
  · -- The first node is the first of the segment after if there is none before.
    rw [hhead, hpa, hna, hhl]
    cases l₁ <;> simp
  · rw [htail hne', hpa, hna, htl]
    rcases List.eq_nil_or_concat l₂ with rfl | ⟨m, b, rfl⟩ <;> simp [List.getLast?_cons]

end DList

/-! ## Iterations -/

/-- The nodes met from a node on, following `next` for at most `n` nodes. -/
def follow (next : α → Option α) : ℕ → Option α → List α
  | 0, _ => []
  | _ + 1, none => []
  | n + 1, some a => a :: follow next n (next a)

/-- The iteration over a list, following `next`: it has no end if there are more than `n` nodes
    to meet. -/
def walk (next : α → Option α) : ℕ → Option α → Java (List α)
  | _, none => .ok []
  | 0, some _ => .error .diverges
  | n + 1, some a => (walk next n (next a)).map (a :: ·)

/-- The loop that walks `h` from the head and `t` from the tail of a list, until `h` is `null` or
    follows `t`, and runs `body` on both in turn. -/
def scanEnds (next prev : α → Option α) [DecidableEq α] (body : β → α → β) :
    ℕ → Option α → Option α → β → Java β
  | _, none, _, b => .ok b
  | 0, some h, t, b =>
    if prev h = t then .ok b else .error (if t = none then .nullPointer else .diverges)
  | n + 1, some h, t, b =>
    if prev h = t then .ok b else
    match t with
    | none => .error .nullPointer
    | some t => scanEnds next prev body n (next h) (prev t) (body (body b h) t)

section Iterations

variable {next prev : α → Option α} {head tail p : Option α} {l : List α}

theorem scanEnds_none [DecidableEq α] {body : β → α → β} (n : ℕ) (t : Option α) (b : β) :
    scanEnds next prev body n none t b = .ok b := by
  cases n <;> rfl

theorem scanEnds_of_eq [DecidableEq α] {body : β → α → β} (n : ℕ) {h : α} {t : Option α} (b : β)
    (ht : prev h = t) : scanEnds next prev body n (some h) t b = .ok b := by
  cases n <;> simp [scanEnds, ht]

theorem scanEnds_of_ne [DecidableEq α] {body : β → α → β} (n : ℕ) {h t : α} (b : β)
    (ht : prev h ≠ some t) : scanEnds next prev body (n + 1) (some h) (some t) b =
      scanEnds next prev body n (next h) (prev t) (body (body b h) t) := by
  rw [scanEnds, if_neg ht]

theorem Segment.follow_eq (h : Segment next prev p l none) :
    follow next l.length l.head? = l := by
  induction l generalizing p with
  | nil => rfl
  | cons a l ih =>
    obtain ⟨_, h₂, h₃⟩ := h
    rw [Option.or_none] at h₂
    simp only [List.head?_cons, List.length_cons, follow, h₂, ih h₃]

theorem Segment.walk_eq (h : Segment next prev p l none) {n : ℕ} (hn : l.length ≤ n) :
    walk next n l.head? = .ok l := by
  induction l generalizing p n with
  | nil => cases n <;> rfl
  | cons a l ih =>
    obtain ⟨_, h₂, h₃⟩ := h
    rw [Option.or_none] at h₂
    cases n with
    | zero => simp at hn
    | succ n =>
      simp only [List.head?_cons, walk, h₂, ih h₃ (Nat.le_of_succ_le_succ hn)]
      rfl

namespace DList

theorem follow_eq (h : DList next prev head tail l) : follow next l.length head = l := by
  rw [h.head_eq, h.segment.follow_eq]

theorem walk_eq (h : DList next prev head tail l) {n : ℕ} (hn : l.length ≤ n) :
    walk next n head = .ok l := by
  rw [h.head_eq, h.segment.walk_eq hn]

/-- The nodes the scan from both ends visits from its `i`-th iteration to its `m`-th. -/
private def visits (l : List α) (i : ℕ) : ℕ → List α
  | 0 => []
  | k + 1 => (l[i]?).toList ++ (l[l.length - 1 - i]?).toList ++ visits l (i + 1) k

private theorem mem_of_mem_visits {i k : ℕ} {a : α} (h : a ∈ visits l i k) : a ∈ l := by
  induction k generalizing i with
  | zero => simp [visits] at h
  | succ k ih =>
    simp only [visits, List.mem_append, Option.mem_toList] at h
    rcases h with (h | h) | h
    exacts [List.mem_of_getElem? h, List.mem_of_getElem? h, ih h]

private theorem mem_visits_left {i k j : ℕ} (hij : i ≤ j) (hjk : j < i + k) {a : α}
    (ha : l[j]? = some a) : a ∈ visits l i k := by
  induction k generalizing i with
  | zero => omega
  | succ k ih =>
    simp only [visits, List.mem_append, Option.mem_toList]
    rcases Nat.eq_or_lt_of_le hij with rfl | hlt
    · exact .inl (.inl ha)
    · exact .inr (ih hlt (by omega))

private theorem mem_visits_right {i k j : ℕ} (hij : i ≤ j) (hjk : j < i + k) {a : α}
    (ha : l[l.length - 1 - j]? = some a) : a ∈ visits l i k := by
  induction k generalizing i with
  | zero => omega
  | succ k ih =>
    simp only [visits, List.mem_append, Option.mem_toList]
    rcases Nat.eq_or_lt_of_le hij with rfl | hlt
    · exact .inl (.inr ha)
    · exact .inr (ih hlt (by omega))

/-- The number of iterations of the scan: past the middle of a list of odd length, the two ends
    cross without meeting, and the scan goes on to the other end. -/
private def rounds (l : List α) : ℕ := if l.length % 2 = 0 then l.length / 2 else l.length

variable [DecidableEq α]

private theorem scanEnds_from (body : β → α → β) (h : DList next prev head tail l) {n i k : ℕ}
    (hk : i + k = rounds l) (hn : k ≤ n) (b : β) :
    scanEnds next prev body n l[i]? (if i < l.length then l[l.length - 1 - i]? else none) b =
      .ok ((visits l i k).foldl body b) := by
  induction k generalizing n i b with
  | zero =>
    -- The scan is over: the list is, or `h` has just passed `t`.
    rcases Nat.lt_or_ge i l.length with hi | hi
    · have h2 : l.length = 2 * i := by
        simp only [rounds] at hk
        split_ifs at hk <;> omega
      have hprev : prev l[i] = l[l.length - 1 - i]? := by
        obtain ⟨j, rfl⟩ : ∃ j, i = j + 1 := ⟨i - 1, by omega⟩
        rw [h.segment.prev_getElem_succ j hi]
        congr 1
        omega
      rw [List.getElem?_eq_getElem hi, if_pos hi, scanEnds_of_eq _ _ hprev]
      rfl
    · rw [List.getElem?_eq_none hi, scanEnds_none]
      rfl
  | succ k ih =>
    have hi : i < l.length := by
      simp only [rounds] at hk
      split_ifs at hk <;> omega
    have ht : l[l.length - 1 - i]? = some l[l.length - 1 - i] := List.getElem?_eq_getElem _
    have hne : prev l[i] ≠ some l[l.length - 1 - i] := by
      cases i with
      | zero =>
        obtain ⟨a, m, rfl⟩ := List.exists_cons_of_length_pos hi
        have : prev a = none := h.segment.1
        simp [this]
      | succ j =>
        rw [h.segment.prev_getElem_succ j hi, ← ht, ne_eq, List.getElem?_inj (by omega) h.nodup]
        simp only [rounds] at hk
        split_ifs at hk <;> omega
    obtain ⟨n, rfl⟩ : ∃ m, n = m + 1 := ⟨n - 1, by omega⟩
    have hnext : next l[i] = l[i + 1]? := h.segment.next_getElem i hi
    have hprev : prev l[l.length - 1 - i] =
        if i + 1 < l.length then l[l.length - 1 - (i + 1)]? else none := by
      split_ifs with hi'
      · obtain ⟨j, hj⟩ : ∃ j, l.length - 1 - i = j + 1 := ⟨l.length - 1 - i - 1, by omega⟩
        have := h.segment.prev_getElem_succ j (by omega)
        simp only [hj]
        rw [this]
        congr 1
        omega
      · have hz : l.length - 1 - i = 0 := by omega
        obtain ⟨a, m, rfl⟩ := List.exists_cons_of_length_pos (show 0 < l.length by omega)
        simp only [hz]
        exact h.segment.1
    rw [List.getElem?_eq_getElem hi, if_pos hi, ht, scanEnds_of_ne _ _ hne, hnext, hprev,
      ih (by omega) (by omega)]
    simp [visits, List.getElem?_eq_getElem hi, ht]

/-- The scan from both ends visits every node of the list, and no other. -/
theorem scanEnds_eq (body : β → α → β) (h : DList next prev head tail l) {n : ℕ} (hn : l.length ≤ n) (b : β) :
    ∃ v : List α, (∀ a, a ∈ v ↔ a ∈ l) ∧
      scanEnds next prev body n head tail b = .ok (v.foldl body b) := by
  refine ⟨visits l 0 (rounds l), fun a => ⟨mem_of_mem_visits, fun ha => ?_⟩, ?_⟩
  · obtain ⟨j, hj, rfl⟩ := List.getElem_of_mem ha
    by_cases hjr : j < rounds l
    · exact mem_visits_left (Nat.zero_le j) (by omega) (List.getElem?_eq_getElem hj)
    · refine mem_visits_right (j := l.length - 1 - j) (Nat.zero_le _) ?_ ?_
      · simp only [rounds] at hjr ⊢
        split_ifs at hjr ⊢ <;> omega
      · rw [show l.length - 1 - (l.length - 1 - j) = j by omega, List.getElem?_eq_getElem hj]
  · have hr : rounds l ≤ n := by
      simp only [rounds]
      split_ifs <;> omega
    have := scanEnds_from body h (Nat.zero_add _) hr b
    cases l with
    | nil =>
      rw [h.head_eq, List.head?_nil, scanEnds_none]
      simp [visits, rounds]
    | cons a l =>
      rw [h.head_eq, h.tail_eq (by simp), List.head?_eq_getElem?, List.getLast?_eq_getElem?]
      simpa using this

end DList

end Iterations

end Mcpq
