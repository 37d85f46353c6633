import Mcpq.Lib.Java

/-!
# Scans for an extremum

The body of a loop that looks for the best of the eligible elements of a list, by a comparison of values
(`keepBest`), with its instances: for an element of least (`keepLeast`) or greatest (`keepGreatest`)
value, or for the last one of least value that is eligible (`keepLastLeast`).

* `foldl_keepBest`: a scan finds nothing better than what it started from, or an eligible element that is
  best;
* `best_foldl_keepBest`: a scan that starts from a value that all elements are better than finds the best
  of them (`Best`);
* `foldl_last`: a scan that keeps any eligible element ends with the last one.
-/

namespace Mcpq

variable {α : Type*} (value : α → ℕ)

/-- Keep `x` if its value is strictly below the least so far. -/
def keepLeast (acc : ℕ × Option α) (x : α) : ℕ × Option α :=
  if value x < acc.1 then (value x, some x) else acc

/-- Keep `x` if its value is strictly above the greatest so far. -/
def keepGreatest (acc : ℕ × Option α) (x : α) : ℕ × Option α :=
  if value x > acc.1 then (value x, some x) else acc

/-- Keep `x` if it is eligible and its value is not above the least so far. -/
def keepLastLeast (ok : α → Prop) [DecidablePred ok] (acc : ℕ × Option α) (x : α) : ℕ × Option α :=
  if value x ≤ acc.1 ∧ ok x then (value x, some x) else acc

/-! ## The best element -/

section best

variable {β : Type*}

/-- Keep `x` if it is eligible and its value is better than the best so far. -/
def keepBest (value : α → β) (better : β → β → Prop) [DecidableRel better] (ok : α → Prop)
    [DecidablePred ok] (acc : β × Option α) (x : α) : β × Option α :=
  if better (value x) acc.1 ∧ ok x then (value x, some x) else acc

/-- The comparison `better` is that of a scan for the best value in the order `le`, whether or not it
    replaces a value by one that is as good. -/
structure Compares (better le : β → β → Prop) : Prop where
  trans : ∀ {a b c}, better a b → better b c → better a c
  le_of : ∀ {a b}, better a b → le a b
  le_of_not : ∀ {a b}, ¬better a b → le b a
  le_trans : ∀ {a b c}, le a b → le b c → le a c

/-- An element of the best value in the list, or nothing if the list is empty. -/
def Best (value : α → β) (le : β → β → Prop) (l : List α) (r : Option α) : Prop :=
  (r = none ↔ l = []) ∧ ∀ x ∈ r, x ∈ l ∧ ∀ y ∈ l, le (value x) (value y)

variable {value : α → β} {better le : β → β → Prop}

theorem Compares.refl (h : Compares better le) (a : β) : le a a := by
  by_cases ha : better a a
  · exact h.le_of ha
  · exact h.le_of_not ha

theorem compares_lt [LinearOrder β] : Compares (β := β) (· < ·) (· ≤ ·) :=
  ⟨lt_trans, le_of_lt, not_lt.1, le_trans⟩

theorem compares_le [LinearOrder β] : Compares (β := β) (· ≤ ·) (· ≤ ·) :=
  ⟨le_trans, id, fun h => (not_le.1 h).le, le_trans⟩

theorem compares_gt [LinearOrder β] : Compares (β := β) (· > ·) (· ≥ ·) :=
  ⟨gt_trans, le_of_lt, not_lt.1, ge_trans⟩

theorem compares_ge [LinearOrder β] : Compares (β := β) (· ≥ ·) (· ≥ ·) :=
  ⟨ge_trans, id, fun h => (not_le.1 h).le, ge_trans⟩

/-- The best element only depends on the elements of the list. -/
theorem Best.congr {l l' : List α} {r : Option α} (h : Best value le l r)
    (hl : ∀ x, x ∈ l ↔ x ∈ l') : Best value le l' r := by
  refine ⟨h.1.trans ?_, fun x hx => ?_⟩
  · rw [List.eq_nil_iff_forall_not_mem, List.eq_nil_iff_forall_not_mem]
    exact forall_congr' fun x => not_congr (hl x)
  · obtain ⟨hmem, hle⟩ := h.2 x hx
    exact ⟨(hl x).1 hmem, fun y hy => hle y ((hl y).2 hy)⟩

variable [DecidableRel better] (ok : α → Prop) [DecidablePred ok]

theorem foldl_keepBest (hb : Compares better le) (l : List α) (acc : β × Option α) :
    (l.foldl (keepBest value better ok) acc = acc ∧ ∀ y ∈ l, ok y → ¬better (value y) acc.1) ∨
      ∃ x ∈ l, ok x ∧ l.foldl (keepBest value better ok) acc = (value x, some x) ∧
        better (value x) acc.1 ∧ ∀ y ∈ l, ok y → le (value x) (value y) := by
  induction l generalizing acc with
  | nil => exact .inl ⟨rfl, by simp⟩
  | cons a l ih =>
    rw [List.foldl_cons]
    by_cases ha : better (value a) acc.1 ∧ ok a
    · have hk : keepBest value better ok acc a = (value a, some a) := if_pos ha
      rw [hk]
      right
      rcases ih (value a, some a) with ⟨h, hnot⟩ | ⟨x, hx, hok, h, hxa, hle⟩
      · exact ⟨a, List.mem_cons_self, ha.2, h, ha.1, List.forall_mem_cons.2
          ⟨fun _ => hb.refl _, fun y hy hyok => hb.le_of_not (hnot y hy hyok)⟩⟩
      · exact ⟨x, List.mem_cons_of_mem _ hx, hok, h, hb.trans hxa ha.1,
          List.forall_mem_cons.2 ⟨fun _ => hb.le_of hxa, hle⟩⟩
    · have hk : keepBest value better ok acc a = acc := if_neg ha
      have hnot : ok a → ¬better (value a) acc.1 := fun hok hba => ha ⟨hba, hok⟩
      rw [hk]
      rcases ih acc with ⟨h, hall⟩ | ⟨x, hx, hok, h, hxacc, hle⟩
      · exact .inl ⟨h, List.forall_mem_cons.2 ⟨hnot, hall⟩⟩
      · -- The element `a` is no better than the start, and `x` is.
        exact .inr ⟨x, List.mem_cons_of_mem _ hx, hok, h, hxacc, List.forall_mem_cons.2
          ⟨fun hoka => hb.le_trans (hb.le_of hxacc) (hb.le_of_not (hnot hoka)), hle⟩⟩

/-- A scan for the best value, started from a value that the eligible elements are better than. -/
theorem best_foldl_keepBest (hb : Compares better le) {l : List α} {m : β}
    (hm : ∀ x ∈ l, ok x → better (value x) m) :
    ∃ b r, l.foldl (keepBest value better ok) (m, none) = (b, r) ∧
      Best value le (l.filter ok) r ∧ b = r.elim m value := by
  rcases foldl_keepBest ok hb l (m, none) with ⟨h, hnot⟩ | ⟨x, hx, hok, h, -, hle⟩
  · have hnil : l.filter ok = [] := List.filter_eq_nil_iff.2 fun y hy hyok =>
      hnot y hy (of_decide_eq_true hyok) (hm y hy (of_decide_eq_true hyok))
    exact ⟨m, none, h, ⟨iff_of_true rfl hnil, fun y hy => nomatch hy⟩, rfl⟩
  · have hmem : x ∈ l.filter ok := List.mem_filter.2 ⟨hx, decide_eq_true hok⟩
    refine ⟨value x, some x, h, ⟨?_, fun y hy => ?_⟩, rfl⟩
    · exact iff_of_false (Option.some_ne_none x) (List.ne_nil_of_mem hmem)
    · obtain rfl := Option.some.inj hy
      exact ⟨hmem, fun z hz => hle z (List.mem_of_mem_filter hz)
        (of_decide_eq_true (List.mem_filter.1 hz).2)⟩

end best

variable {value}

/-! ## The least and the greatest -/

theorem keepLeast_eq : keepLeast value = keepBest value (· < ·) fun _ => True :=
  funext₂ fun _ _ => if_congr (iff_of_eq (and_true _)).symm rfl rfl

theorem keepGreatest_eq : keepGreatest value = keepBest value (· > ·) fun _ => True :=
  funext₂ fun _ _ => if_congr (iff_of_eq (and_true _)).symm rfl rfl

theorem foldl_keepLeast (l : List α) (acc : ℕ × Option α) :
    (l.foldl (keepLeast value) acc = acc ∧ ∀ y ∈ l, acc.1 ≤ value y) ∨
      ∃ x ∈ l, l.foldl (keepLeast value) acc = (value x, some x) ∧ value x < acc.1 ∧
        ∀ y ∈ l, value x ≤ value y := by
  rw [keepLeast_eq]
  simpa using foldl_keepBest (fun _ => True) compares_lt l acc

theorem foldl_keepLastLeast (value : α → ℕ) (ok : α → Prop) [DecidablePred ok] (l : List α)
    (acc : ℕ × Option α) :
    (l.foldl (keepLastLeast value ok) acc = acc ∧ ∀ y ∈ l, ok y → acc.1 < value y) ∨
      ∃ x ∈ l, ok x ∧ l.foldl (keepLastLeast value ok) acc = (value x, some x) ∧
        value x ≤ acc.1 ∧ ∀ y ∈ l, ok y → value x ≤ value y := by
  have heq : keepLastLeast value ok = keepBest value (· ≤ ·) ok := rfl
  rw [heq]
  simpa using foldl_keepBest ok compares_le l acc

/-- A scan that keeps each eligible element ends with the last one. -/
theorem foldl_last (ok : α → Bool) (l : List α) :
    l.foldl (fun last x => if ok x then some x else last) none = (l.filter ok).getLast? := by
  induction l using List.reverseRecOn with
  | nil => rfl
  | append_singleton l a ih =>
    rw [List.foldl_concat, ih, List.filter_append]
    cases ha : ok a with
    | false => rw [if_neg Bool.false_ne_true, List.filter_singleton, ha, cond_false, List.append_nil]
    | true => rw [if_pos rfl, List.filter_singleton, ha, cond_true, List.getLast?_concat]

/-- The last eligible element is the last element if this one is eligible. -/
theorem getLast?_filter_of_getLast {ok : α → Bool} {l : List α} (hne : l ≠ [])
    (hok : ok (l.getLast hne) = true) : (l.filter ok).getLast? = some (l.getLast hne) := by
  rcases List.eq_nil_or_concat' l with rfl | ⟨l, a, rfl⟩
  · exact absurd rfl hne
  · rw [List.getLast_append_singleton] at hok ⊢
    rw [List.filter_append, List.filter_singleton, hok, cond_true, List.getLast?_concat]

/-- A scan for the least value, started above some value of the list, finds an element of least
    value. -/
theorem foldl_keepLeast_of_lt (value : α → ℕ) {l : List α} {m : ℕ} (b : Option α)
    (h : ∃ x ∈ l, value x < m) :
    ∃ x ∈ l, l.foldl (keepLeast value) (m, b) = (value x, some x) ∧ value x < m ∧
      ∀ y ∈ l, value x ≤ value y := by
  rcases foldl_keepLeast l (m, b) with ⟨_, hle⟩ | h'
  · obtain ⟨x, hx, hlt⟩ := h
    exact absurd hlt (not_lt.2 (hle x hx))
  · exact h'

/-! ## The greatest value -/

variable (value) in
/-- The greatest value in a list, or 0. -/
def greatest (l : List α) : ℕ := l.foldl (fun t x => max t (value x)) 0

theorem foldl_max (l : List α) (t : ℕ) :
    l.foldl (fun t x => max t (value x)) t = max t (greatest value l) := by
  rw [greatest]
  induction l generalizing t with
  | nil => exact (Nat.max_zero t).symm
  | cons a l ih => rw [List.foldl_cons, List.foldl_cons, ih, ih (max 0 (value a)), zero_max, max_assoc]

theorem greatest_cons (a : α) (l : List α) : greatest value (a :: l) = max (value a) (greatest value l) := by
  rw [greatest, List.foldl_cons, foldl_max, zero_max]

theorem le_greatest {l : List α} {x : α} (hx : x ∈ l) : value x ≤ greatest value l := by
  induction hx with
  | head l => exact (le_max_left _ _).trans (greatest_cons _ l).ge
  | tail a _ ih => exact (ih.trans (le_max_right _ _)).trans (greatest_cons a _).ge

theorem greatest_le {l : List α} {t : ℕ} (h : ∀ x ∈ l, value x ≤ t) : greatest value l ≤ t := by
  induction l with
  | nil => exact Nat.zero_le t
  | cons a l ih =>
    rw [greatest_cons]
    exact max_le (h a List.mem_cons_self) (ih fun x hx => h x (List.mem_cons_of_mem a hx))

/-- The greatest value is that of an element. -/
theorem exists_greatest (value : α → ℕ) {l : List α} (hne : l ≠ []) :
    ∃ x ∈ l, value x = greatest value l := by
  induction l with
  | nil => exact absurd rfl hne
  | cons a l ih =>
    rw [greatest_cons]
    rcases eq_or_ne l [] with rfl | hl
    · exact ⟨a, List.mem_cons_self, (Nat.max_zero _).symm⟩
    · obtain ⟨x, hx, heq⟩ := ih hl
      rcases le_total (value a) (greatest value l) with hle | hle
      · exact ⟨x, List.mem_cons_of_mem a hx, heq.trans (max_eq_right hle).symm⟩
      · exact ⟨a, List.mem_cons_self, (max_eq_left hle).symm⟩

/-- The greatest value only depends on the elements of the list. -/
theorem greatest_congr {l l' : List α} (h : ∀ x, x ∈ l ↔ x ∈ l') :
    greatest value l = greatest value l' :=
  le_antisymm (greatest_le fun x hx => le_greatest ((h x).1 hx))
    (greatest_le fun x hx => le_greatest ((h x).2 hx))

end Mcpq
