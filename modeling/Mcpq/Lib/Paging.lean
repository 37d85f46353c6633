import Mcpq.Lib.Java

/-!
# Paging

A paging system serves a sequence of accesses to addresses `α`: an access *hits* if the page is in
memory, and otherwise *faults*, possibly evicting another page (`Outcome`). A system is a step
function on its states, which may depend on the number of the access (`runAccesses`).

The *LRU stack* is the abstract least recently used system of a given capacity: the list of the
resident pages, most recently used first (`touch`, `outcome`).

* `runAccesses_lru`: a system that simulates the LRU stack step by step has its outcomes on every
  sequence of accesses;
* `OrderedBy`: the stack order of a system that stamps its pages at each access, where the page
  to evict is the one of least stamp (`OrderedBy.serves`);
* `lruStack_take` and `faults_le`: the inclusion property — the stack of a smaller capacity is a
  prefix of the stack of a larger one, so that it faults whenever the larger one does.
-/

namespace Mcpq

variable {σ α : Type*}

/-- What an access to a page does: it is in memory, or it is loaded, possibly in the place of a
    page that is evicted. -/
inductive Outcome (α : Type*)
  | hit
  | fault (evicted : Option α)
  deriving DecidableEq, Repr

/-- Whether the access loads a page. -/
def Outcome.isFault : Outcome α → Bool
  | .hit => false
  | .fault _ => true

/-- A run of accesses, numbered from `i` on, with their outcomes. -/
def runAccesses (step : ℕ → σ → α → Java (σ × Outcome α)) :
    ℕ → σ → List α → Java (σ × List (Outcome α))
  | _, s, [] => .ok (s, [])
  | i, s, a :: as => do
    let (s, o) ← step i s a
    let (s, os) ← runAccesses step (i + 1) s as
    pure (s, o :: os)

/-- The number of faults of a run. -/
def faults (os : List (Outcome α)) : ℕ := os.countP Outcome.isFault

theorem runAccesses_cons {step : ℕ → σ → α → Java (σ × Outcome α)} {i : ℕ} {s s₁ s₂ : σ} {a : α}
    {as : List α} {o : Outcome α} {os : List (Outcome α)} (h₁ : step i s a = .ok (s₁, o))
    (h₂ : runAccesses step (i + 1) s₁ as = .ok (s₂, os)) :
    runAccesses step i s (a :: as) = .ok (s₂, o :: os) := by
  simp only [runAccesses, h₁, h₂, ok_bind, pure_eq_ok]

/-! ## The LRU stack -/

variable [DecidableEq α]

/-- The LRU stack of capacity `n` after an access. -/
def touch (n : ℕ) (l : List α) (a : α) : List α := (a :: l.erase a).take n

/-- What an access does to the LRU stack of capacity `n`. -/
def outcome (n : ℕ) (l : List α) (a : α) : Outcome α :=
  if a ∈ l then .hit else .fault (if l.length < n then none else l.getLast?)

/-- The LRU stack of capacity `n` after a run from `l`. -/
def lruStack (n : ℕ) (l : List α) (as : List α) : List α := as.foldl (touch n) l

/-- The outcomes of a run on the LRU stack of capacity `n`. -/
def lruOutcomes (n : ℕ) : List α → List α → List (Outcome α)
  | _, [] => []
  | l, a :: as => outcome n l a :: lruOutcomes n (touch n l a) as

theorem touch_of_mem {n : ℕ} {l : List α} {a : α} (h : a ∈ l) (hn : l.length ≤ n) :
    touch n l a = a :: l.erase a := by
  refine List.take_of_length_le ?_
  have := List.length_pos_of_mem h
  rw [List.length_cons, List.length_erase_of_mem h]
  omega

theorem touch_of_lt {n : ℕ} {l : List α} {a : α} (h : a ∉ l) (hn : l.length < n) :
    touch n l a = a :: l := by
  rw [touch, List.erase_of_not_mem h]
  exact List.take_of_length_le hn

theorem touch_of_full {n : ℕ} {l : List α} {a : α} (h : a ∉ l) (hn : l.length = n) (h0 : 0 < n) :
    touch n l a = a :: l.dropLast := by
  obtain ⟨n, rfl⟩ : ∃ m, n = m + 1 := ⟨n - 1, by omega⟩
  rw [touch, List.erase_of_not_mem h, List.take_succ_cons, List.dropLast_eq_take, hn,
    Nat.add_sub_cancel]

/-- A system whose steps simulate those of the LRU stack, along a relation `R` between the accesses
    to come, its states and the stacks, has its outcomes on every run. -/
theorem runAccesses_lru {n : ℕ} {step : ℕ → σ → α → Java (σ × Outcome α)}
    {R : List α → σ → List α → Prop}
    (hR : ∀ i s l a as, R (a :: as) s l →
      ∃ s', step i s a = .ok (s', outcome n l a) ∧ R as s' (touch n l a))
    {i : ℕ} {s : σ} {l : List α} (as : List α) (hs : R as s l) :
    ∃ s', runAccesses step i s as = .ok (s', lruOutcomes n l as) ∧ R [] s' (lruStack n l as) := by
  induction as generalizing i s l with
  | nil => exact ⟨s, rfl, hs⟩
  | cons a as ih =>
    obtain ⟨s₁, h₁, hs₁⟩ := hR i s l a as hs
    obtain ⟨s₂, h₂, hs₂⟩ := ih (i := i + 1) hs₁
    exact ⟨s₂, runAccesses_cons h₁ h₂, hs₂⟩

omit [DecidableEq α] in
/-- Two systems whose steps agree where an invariant holds have the same runs. -/
theorem runAccesses_agree {step step' : ℕ → σ → α → Java (σ × Outcome α)} {I : σ → Prop}
    (hstep : ∀ i s a, I s → ∃ s' o, step i s a = .ok (s', o) ∧ step' i s a = .ok (s', o) ∧ I s')
    {i : ℕ} {s : σ} (as : List α) (hs : I s) :
    ∃ s' os, runAccesses step i s as = .ok (s', os) ∧ runAccesses step' i s as = .ok (s', os) := by
  induction as generalizing i s with
  | nil => exact ⟨s, [], rfl, rfl⟩
  | cons a as ih =>
    obtain ⟨s₁, o, h₁, h₁', hs₁⟩ := hstep i s a hs
    obtain ⟨s₂, os, h₂, h₂'⟩ := ih (i := i + 1) hs₁
    exact ⟨s₂, o :: os, runAccesses_cons h₁ h₂, runAccesses_cons h₁' h₂'⟩

/-! ## Stamps -/

/-- The pages of `l` have strictly decreasing stamps. -/
def OrderedBy (stamp : α → ℕ) (l : List α) : Prop := l.Pairwise fun a b => stamp b < stamp a

/-- A page of least stamp. -/
def Oldest (stamp : α → ℕ) (l : List α) (a : α) : Prop := ∀ b ∈ l, stamp a ≤ stamp b

section OrderedBy

variable {stamp stamp' : α → ℕ} {l : List α}

omit [DecidableEq α] in
theorem OrderedBy.nodup (h : OrderedBy stamp l) : l.Nodup :=
  h.imp fun hlt => by rintro rfl; exact lt_irrefl _ hlt

omit [DecidableEq α] in
theorem OrderedBy.congr (h : OrderedBy stamp l) (he : ∀ b ∈ l, stamp' b = stamp b) :
    OrderedBy stamp' l :=
  h.imp_of_mem fun ha hb hlt => by rw [he _ ha, he _ hb]; exact hlt

/-- A page that gets a stamp above all the others comes first. -/
theorem OrderedBy.touch (h : OrderedBy stamp l) {a : α} {n : ℕ}
    (he : ∀ b ∈ touch n l a, b ≠ a → stamp' b = stamp b)
    (hlt : ∀ b ∈ l, b ≠ a → stamp b < stamp' a) : OrderedBy stamp' (touch n l a) := by
  cases n with
  | zero => exact .nil
  | succ n =>
    rw [Mcpq.touch, List.take_succ_cons] at he ⊢
    have hne : ∀ b ∈ (l.erase a).take n, b ∈ l ∧ b ≠ a := fun b hb =>
      (h.nodup.mem_erase_iff.1 (List.mem_of_mem_take hb)).symm
    have heq : ∀ b ∈ (l.erase a).take n, stamp' b = stamp b := fun b hb =>
      he b (List.mem_cons_of_mem _ hb) (hne b hb).2
    refine List.pairwise_cons.2 ⟨fun b hb => ?_, ?_⟩
    · rw [heq b hb]
      exact hlt b (hne b hb).1 (hne b hb).2
    · exact OrderedBy.congr
        (List.Pairwise.sublist ((List.take_sublist _ _).trans List.erase_sublist) h) heq

omit [DecidableEq α] in
/-- The last page of the stack is the one of least stamp. -/
theorem OrderedBy.getLast?_eq (h : OrderedBy stamp l) {a : α} (ha : a ∈ l)
    (hle : Oldest stamp l a) : l.getLast? = some a := by
  rcases List.eq_nil_or_concat l with rfl | ⟨m, b, rfl⟩
  · simp at ha
  · rw [List.concat_eq_append] at *
    rcases List.mem_append.1 ha with ham | hab
    · have := (List.pairwise_append.1 h).2.2 a ham b (by simp)
      exact absurd (hle b (by simp)) (not_le.2 this)
    · rw [List.mem_singleton.1 hab, List.getLast?_concat]

/-- What an access to `a` does to a memory of capacity `n`: its outcome is `o`, where the page
    evicted satisfies `V`, and the resident pages go from `res` to `res'`. -/
structure Serves (n : ℕ) (a : α) (o : Outcome α) (res res' : List α) (V : α → Prop)
    (stamp stamp' : α → ℕ) : Prop where
  nodup : res'.Nodup
  mem_iff : ∀ b, b ∈ res' ↔ b = a ∨ b ∈ res ∧ o ≠ .fault (some b)
  outcome : a ∈ res ∧ o = .hit ∨ a ∉ res ∧ res.length < n ∧ o = .fault none ∨
    ∃ v ∈ res, a ∉ res ∧ res.length = n ∧ o = .fault (some v) ∧ V v
  stamp_eq : ∀ b ∈ res, b ∈ res' → b ≠ a → stamp' b = stamp b
  stamp_lt : ∀ b ∈ res, b ≠ a → stamp b < stamp' a

omit [DecidableEq α] in
private theorem mem_dropLast {b : α} (hl : l.Nodup) :
    b ∈ l.dropLast ↔ b ∈ l ∧ l.getLast? ≠ some b := by
  rcases List.eq_nil_or_concat l with rfl | ⟨m, c, rfl⟩
  · simp
  · rw [List.concat_eq_append] at *
    rw [List.dropLast_concat, List.getLast?_concat, List.mem_append, List.mem_singleton, Ne,
      Option.some.injEq]
    have hne := (List.nodup_append.1 hl).2.2
    constructor
    · intro hb
      exact ⟨.inl hb, fun h => hne b hb c List.mem_cons_self h.symm⟩
    · rintro ⟨hb | hb, hne⟩
      · exact hb
      · exact absurd hb.symm hne

theorem mem_touch {n : ℕ} {a b : α} (hl : l.Nodup) (hn : l.length ≤ n) (h0 : 0 < n) :
    b ∈ touch n l a ↔ b = a ∨ b ∈ l ∧ outcome n l a ≠ .fault (some b) := by
  by_cases ha : a ∈ l
  · rw [touch_of_mem ha hn, outcome, if_pos ha, List.mem_cons, hl.mem_erase_iff]
    by_cases hb : b = a <;> simp [hb]
  · rw [outcome, if_neg ha]
    rcases hn.lt_or_eq with hlt | heq
    · rw [touch_of_lt ha hlt, List.mem_cons, if_pos hlt]
      simp
    · rw [touch_of_full ha heq h0, List.mem_cons, mem_dropLast hl, if_neg (by omega)]
      simp

/-- An access to a memory that evicts the page of least stamp is an access to the LRU stack of its
    pages. -/
theorem OrderedBy.serves {n : ℕ} {a : α} {o : Outcome α} {res res' : List α}
    (h : OrderedBy stamp l) (hp : l.Perm res) (hn : res.length ≤ n) (h0 : 0 < n)
    (hs : Serves n a o res res' (Oldest stamp res) stamp stamp') :
    o = Mcpq.outcome n l a ∧ OrderedBy stamp' (Mcpq.touch n l a) ∧
      (Mcpq.touch n l a).Perm res' := by
  have ho : o = Mcpq.outcome n l a := by
    simp only [Mcpq.outcome, hp.mem_iff, hp.length_eq]
    rcases hs.outcome with ⟨ha, ho⟩ | ⟨ha, hlt, ho⟩ | ⟨v, hv, ha, hlen, ho, hle⟩
    · rw [if_pos ha, ho]
    · rw [if_neg ha, if_pos hlt, ho]
    · rw [if_neg ha, if_neg (by omega), ho,
        h.getLast?_eq (hp.mem_iff.2 hv) fun b hb => hle b (hp.mem_iff.1 hb)]
  have hmem : ∀ b, b ∈ Mcpq.touch n l a ↔ b ∈ res' := fun b => by
    rw [mem_touch h.nodup (hp.length_eq ▸ hn) h0, hs.mem_iff, ho, hp.mem_iff]
  have htouch : OrderedBy stamp' (Mcpq.touch n l a) := h.touch
    (fun b hb hba => by
      have hb' := (hmem b).1 hb
      exact hs.stamp_eq b (((hs.mem_iff b).1 hb').resolve_left hba).1 hb' hba)
    fun b hb => hs.stamp_lt b (hp.mem_iff.1 hb)
  exact ⟨ho, htouch, (List.perm_ext_iff_of_nodup htouch.nodup hs.nodup).2 hmem⟩

end OrderedBy

/-! ## Inclusion -/

private theorem take_erase (k : ℕ) (l : List α) (a : α) :
    ((l.take (k + 1)).erase a).take k = (l.erase a).take k := by
  induction l generalizing k with
  | nil => simp
  | cons b l ih =>
    rw [List.take_succ_cons, List.erase_cons, List.erase_cons]
    by_cases hb : b == a
    · simp [hb]
    · rw [if_neg hb, if_neg hb]
      cases k with
      | zero => simp
      | succ k => rw [List.take_succ_cons, List.take_succ_cons, ih]

theorem touch_take {n m : ℕ} (h : n ≤ m) (l : List α) (a : α) :
    touch n (l.take n) a = (touch m l a).take n := by
  rw [touch, touch, List.take_take, min_eq_left h]
  cases n with
  | zero => simp
  | succ n => rw [List.take_succ_cons, List.take_succ_cons, take_erase]

/-- The stack of a smaller capacity is a prefix of the stack of a larger one. -/
theorem lruStack_take {n m : ℕ} (h : n ≤ m) (l : List α) (as : List α) :
    lruStack n (l.take n) as = (lruStack m l as).take n := by
  induction as generalizing l with
  | nil => rfl
  | cons a as ih =>
    simp only [lruStack, List.foldl_cons] at ih ⊢
    rw [touch_take h, ih]

/-- A larger capacity faults at most as often. -/
theorem faults_le {n m : ℕ} (h : n ≤ m) (l : List α) (as : List α) :
    faults (lruOutcomes m l as) ≤ faults (lruOutcomes n (l.take n) as) := by
  induction as generalizing l with
  | nil => rfl
  | cons a as ih =>
    have hih := ih (touch m l a)
    rw [← touch_take h] at hih
    have hmem : a ∈ l.take n → a ∈ l := List.mem_of_mem_take
    simp only [faults, lruOutcomes, List.countP_cons] at hih ⊢
    by_cases hl : a ∈ l
    · simp only [outcome, if_pos hl, Outcome.isFault, Bool.false_eq_true, if_false]
      omega
    · simp only [outcome, if_neg hl, if_neg (mt hmem hl), Outcome.isFault]
      omega

end Mcpq
