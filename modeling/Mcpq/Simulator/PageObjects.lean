import Mcpq.Simulator.LruStack
import Mcpq.Lib.Transition

/-!
# The page objects of the memory manager

The class `MemoryManager` again, as a manager of page objects: memory holds references to them, and
finds a page by comparing addresses; the disk maps each address to the page object created for it.

* `ObjectManager.access`: an access, given the reference of the object created if one is;
* `access_inventory`: whatever the policy does, the pages in memory have distinct addresses, and are
  those that the disk maps their addresses to (`Inventory`);
* `memory_accounting`: with a policy that finds a page of a full memory and keeps the counters, every
  access is served, and the counters of all pages add up to the accesses, the faults and the evictions,
  as long as no `int` of a page can have wrapped around (`memory_accounting_wraps`).

`lru_findsAlways`: LRU is such a policy.
-/

namespace Mcpq.Simulator

/-- The manager, with references to page objects. -/
structure ObjectManager (σ : Type) where
  policy : σ
  size : ℕ
  memory : List (Option PageRef)
  memoryPointer : ℕ := 0
  /-- The entries of the map `disk`. -/
  disk : List (ℤ × PageRef) := []
  /-- The addresses of the page objects. -/
  address : PageRef → ℤ := fun _ => 0
  heap : Heap

namespace ObjectManager

variable {σ : Type}

/-- `new MemoryManager(policy, size)`, on a clock that may have ticked before. -/
def make (policy : σ) (size : ℕ) (clock : LogicalClock) : ObjectManager σ where
  policy
  size
  memory := List.replicate size none
  heap := { clock }

variable (P : IPageReplacementPolicy σ) (m : ObjectManager σ)

/-- The page objects on the disk: all there are. -/
def objects : List PageRef := m.disk.map Prod.snd

/-- The page of an address, created with the reference `new` if it is not on the disk. -/
def getFromDisk (new : PageRef) (address : ℤ) : ObjectManager σ × PageRef :=
  match m.disk.lookup address with
  | some p => (m, p)
  | none =>
    ({ m with
        disk := (address, new) :: m.disk
        address := Function.update m.address new address
        heap := { m.heap with
          page := Function.update m.heap.page new {}
          disk := new :: m.heap.disk } }, new)

/-- The page of an address, or `null` if it is not in memory. -/
def getFromMemory (address : ℤ) : Option PageRef :=
  (m.memory.find? fun p => p.any (m.address · == address)).join

/-- The position of a page in memory: of the first one with its address. -/
def evict (page : PageRef) : ℤ :=
  match m.memory.findIdx? fun p => p.any (m.address · == m.address page) with
  | some i => i
  | none => -1

/-- A position for a page, and the address of the page evicted if memory is full. -/
def freePosition : Java (ObjectManager σ × ℤ × Option ℤ) :=
  if m.memory.length ≤ m.memoryPointer then do
    let (page, heap, policy) ← P.findPageToEvict m.policy m.heap m.memory
    let page ← deref page
    let m := { m with heap := heap.updateEvictStats page, policy }
    pure (m, m.evict page, some (m.address page))
  else .ok ({ m with memoryPointer := m.memoryPointer + 1 }, m.memoryPointer, none)

/-- Load the page of an address to a position. -/
def loadTo (new : PageRef) (position : ℤ) (address : ℤ) : Java (ObjectManager σ) := do
  let (m, page) := m.getFromDisk new address
  let heap := (m.heap.updateLoadStats page).updateRefStats page
  let memory ← arraySet m.memory position (some page)
  pure { m with heap, memory }

/-- Access the page of an address. -/
def access (new : PageRef) (address : ℤ) : Java (ObjectManager σ × Outcome ℤ) :=
  match m.getFromMemory address with
  | none => do
    let (m, position, evicted) ← m.freePosition P
    let m ← m.loadTo new position address
    pure (m, .fault evicted)
  | some page => .ok ({ m with heap := m.heap.updateRefStats page }, .hit)

/-- The sum of a counter of the pages on the disk. -/
def total (field : MemoryPage → Int32) : ℤ :=
  (m.objects.map fun p => (field (m.heap.page p)).toInt).sum

/-- The statistics of `summary`: the hits, the misses and the evictions of all pages. -/
def summary : ℤ × ℤ × ℤ := (m.total (·.hit), m.total (·.miss), m.total (·.evict))

/-- The page of the address is in memory. -/
def Resident (address : ℤ) : Prop := (m.getFromMemory address).isSome = true

end ObjectManager

/-- The accesses of a manager of capacity `n`, with their outcomes. The reference of a page object that
    is created is not that of another one. -/
def ObjectSystem {σ : Type} (n : ℕ) (P : IPageReplacementPolicy σ) (policy : σ)
    (clock : LogicalClock) : Transition (ObjectManager σ) (ℤ × Outcome ℤ) where
  init m := m = .make policy n clock
  step m i m' := ∃ new, new ∉ m.objects ∧ m.access P new i.1 = .ok (m', i.2)

/-! ## Counters -/

/-- A counter of the pages on the disk has been increased `N` times in all. -/
def Tally {σ : Type} (m : ObjectManager σ) (field : MemoryPage → Int32) (N : ℕ) : Prop :=
  ∃ count : PageRef → ℕ, (∀ p ∈ m.objects, field (m.heap.page p) = Int32.ofNat (count p)) ∧
    (m.objects.map count).sum = N

namespace Tally

variable {σ : Type} {m : ObjectManager σ} {field : MemoryPage → Int32} {N : ℕ}

/-- A new manager has counted nothing. -/
theorem make (policy : σ) (n : ℕ) (clock : LogicalClock) (field : MemoryPage → Int32) :
    Tally (.make policy n clock) field 0 :=
  ⟨fun _ => 0, fun _ hp => absurd hp List.not_mem_nil, rfl⟩

/-- The sum of the counters is the number of increments, up to multiples of `2 ^ 32`. -/
theorem total_modEq (h : Tally m field N) : m.total field ≡ N [ZMOD 2 ^ 32] := by
  obtain ⟨count, hcount, rfl⟩ := h
  rw [ObjectManager.total]
  generalize m.objects = l at hcount ⊢
  induction l with
  | nil => rfl
  | cons p l ih =>
    rw [List.forall_mem_cons] at hcount
    have hp : (field (m.heap.page p)).toInt ≡ count p [ZMOD 2 ^ 32] := by
      rw [hcount.1, Int32.toInt_ofNat']
      exact Int.bmod_emod
    simp only [List.map_cons, List.sum_cons, Nat.cast_add]
    exact hp.add (ih hcount.2)

/-- The sum of the counters is the number of increments while no counter can have wrapped around. -/
theorem total_eq (h : Tally m field N) (hN : N < 2 ^ 31) : m.total field = N := by
  obtain ⟨count, hcount, rfl⟩ := h
  rw [ObjectManager.total]
  generalize m.objects = l at hcount hN ⊢
  induction l with
  | nil => rfl
  | cons p l ih =>
    rw [List.forall_mem_cons] at hcount
    simp only [List.map_cons, List.sum_cons] at hN ⊢
    rw [hcount.1, Int32.toInt_ofNat_of_lt (by omega), ih hcount.2 (by omega), Nat.cast_add]

end Tally

/-! ## The disk -/

/-- The disk maps addresses to pages that have them. -/
structure OnDisk {σ : Type} (m : ObjectManager σ) : Prop where
  keys : (m.disk.map Prod.fst).Nodup
  address_eq : ∀ e ∈ m.disk, m.address e.2 = e.1

namespace OnDisk

variable {σ : Type} {m : ObjectManager σ} {a : ℤ} {p new : PageRef}

/-- The disk has one entry for each address. -/
theorem lookup_eq_some (h : OnDisk m) : m.disk.lookup a = some p ↔ (a, p) ∈ m.disk := by
  have hnd := h.keys
  generalize m.disk = l at hnd
  induction l with
  | nil => simp
  | cons e l ih =>
    obtain ⟨hne, hnd⟩ := List.nodup_cons.1 hnd
    by_cases ha : a = e.1
    · -- No other entry has the key.
      have hl : (a, p) ∉ l := fun hl => hne (ha ▸ List.mem_map_of_mem (f := Prod.fst) hl)
      have hlookup : (e :: l).lookup a = some e.2 := by
        rw [ha]
        exact List.lookup_cons_self
      rw [hlookup, List.mem_cons, or_iff_left hl]
      simp [ha, Prod.ext_iff, eq_comm]
    · have hlookup : (e :: l).lookup a = l.lookup a := by
        rw [List.lookup_cons, beq_false_of_ne ha]
      rw [hlookup, List.mem_cons, or_iff_right fun heq => ha (congrArg Prod.fst heq)]
      exact ih hnd

/-- A page object has one address. -/
theorem objects_nodup (h : OnDisk m) : m.objects.Nodup := by
  refine List.Nodup.of_map m.address ?_
  have heq : m.objects.map m.address = m.disk.map Prod.fst := by
    rw [ObjectManager.objects, List.map_map]
    exact List.map_congr_left h.address_eq
  rw [heq]
  exact h.keys

/-- One page is written. -/
theorem tally_add (h : OnDisk m) (hp : p ∈ m.objects) {m' : ObjectManager σ}
    {field : MemoryPage → Int32} {N : ℕ} (k : ℕ) (hN : Tally m field N)
    (hpage : ∀ q, q ≠ p → field (m'.heap.page q) = field (m.heap.page q))
    (hfield : field (m'.heap.page p) = field (m.heap.page p) + Int32.ofNat k)
    (hdisk : m'.disk = m.disk := by rfl) : Tally m' field (N + k) := by
  obtain ⟨count, hcount, rfl⟩ := hN
  have hobjects : m'.objects = m.objects := congrArg (List.map Prod.snd) hdisk
  refine ⟨Function.update count p (count p + k), fun q hq => ?_, ?_⟩
  · rw [hobjects] at hq
    rcases eq_or_ne q p with rfl | hqp
    · rw [hfield, hcount q hq, Function.update_self, Int32.ofNat_add]
    · rw [hpage q hqp, hcount q hq, Function.update_of_ne hqp]
  · have hrest : (m.objects.erase p).map (Function.update count p (count p + k)) =
        (m.objects.erase p).map count :=
      List.map_congr_left fun q hq => Function.update_of_ne (h.objects_nodup.mem_erase_iff.1 hq).1 ..
    rw [hobjects, ← List.sum_map_erase _ hp, ← List.sum_map_erase count hp, hrest,
      Function.update_self]
    omega

/-- The policy may write the pages, and the page evicted is counted. -/
theorem tally_of_find (h : OnDisk m) (hp : p ∈ m.objects) {heap : Heap} {policy : σ}
    {field : MemoryPage → Int32} {N : ℕ} (k : ℕ) (hN : Tally m field N)
    (hfind : ∀ q, field (heap.page q) = field (m.heap.page q))
    (hk : ∀ q, field (MemoryPage.updateEvictStats q) = field q + Int32.ofNat k) :
    Tally { m with heap := heap.updateEvictStats p, policy } field (N + k) := by
  refine h.tally_add hp k hN (fun q hq => ?_) ?_
  · rw [← hfind]
    exact congrArg field (Heap.modify_page_of_ne _ _ hq)
  · rw [← hfind, ← hk]
    exact congrArg field (Heap.modify_page_self ..)

/-- The page of an address is got from the disk, or created. -/
theorem getFromDisk (h : OnDisk m) (hnew : new ∉ m.objects) (a : ℤ) :
    ∃ disk address heap p, m.getFromDisk new a = ({ m with disk, address, heap }, p) ∧
      OnDisk { m with disk, address, heap } ∧ (a, p) ∈ disk ∧ (∀ e ∈ m.disk, e ∈ disk) ∧
      (∀ q ∈ m.objects, address q = m.address q) ∧
      ∀ (field : MemoryPage → Int32) (N : ℕ), field {} = 0 → Tally m field N →
        Tally { m with disk, address, heap } field N := by
  rw [ObjectManager.getFromDisk]
  cases hl : m.disk.lookup a with
  | some p =>
    exact ⟨_, _, _, p, rfl, h, h.lookup_eq_some.1 hl, fun _ he => he, fun _ _ => rfl,
      fun _ _ _ hN => hN⟩
  | none =>
    have hother : ∀ q ∈ m.objects, q ≠ new := fun q hq hqn => hnew (hqn ▸ hq)
    refine ⟨_, _, _, new, rfl, ⟨?_, fun e he => ?_⟩, List.mem_cons_self,
      fun e he => List.mem_cons_of_mem _ he, fun q hq => Function.update_of_ne (hother q hq) ..,
      fun field N hf hN => ?_⟩
    · refine List.nodup_cons.2 ⟨fun ha => ?_, h.keys⟩
      rw [List.lookup_eq_none_iff] at hl
      obtain ⟨e, he, hea⟩ := List.mem_map.1 ha
      simpa [hea] using hl e he
    · rcases List.mem_cons.1 he with rfl | he
      · exact Function.update_self ..
      · rw [← h.address_eq e he]
        exact Function.update_of_ne (hother e.2 (List.mem_map_of_mem he)) ..
    · -- The new object has been counted for nothing yet.
      obtain ⟨count, hcount, rfl⟩ := hN
      refine ⟨Function.update count new 0, List.forall_mem_cons.2 ⟨?_, fun q hq => ?_⟩, ?_⟩
      · simp [hf]
      · rw [Function.update_of_ne (hother q hq)]
        exact (congrArg field (Function.update_of_ne (hother q hq) ..)).trans (hcount q hq)
      · have hrest : m.objects.map (Function.update count new 0) = m.objects.map count :=
          List.map_congr_left fun q hq => Function.update_of_ne (hother q hq) ..
        calc (Function.update count new 0 new) +
              (m.objects.map (Function.update count new 0)).sum
            = (m.objects.map count).sum := by rw [hrest, Function.update_self, Nat.zero_add]

/-- The page of an address is loaded: its counters `HIT` and `MISS` are increased. -/
theorem loadTo (h : OnDisk m) (hnew : new ∉ m.objects) (a : ℤ) {i : ℕ} (hi : i < m.memory.length) :
    ∃ disk address heap p, m.loadTo new i a =
        .ok { m with disk, address, heap, memory := m.memory.set i (some p) } ∧
      OnDisk { m with disk, address, heap, memory := m.memory.set i (some p) } ∧ (a, p) ∈ disk ∧
      (∀ e ∈ m.disk, e ∈ disk) ∧ (∀ q ∈ m.objects, address q = m.address q) ∧
      ∀ (field : MemoryPage → Int32) (k N : ℕ), field {} = 0 →
        (∀ p c c', field ((p.updateLoadStats c).updateRefStats c') = field p + Int32.ofNat k) →
        Tally m field N →
          Tally { m with disk, address, heap, memory := m.memory.set i (some p) } field (N + k) := by
  obtain ⟨disk, address, heap, p, heq, hd, hp, hsub, haddr, htally⟩ := h.getFromDisk hnew a
  refine ⟨disk, address, (heap.updateLoadStats p).updateRefStats p, p, ?_,
    ⟨hd.keys, hd.address_eq⟩, hp, hsub, haddr, fun field k N hf hk hN => ?_⟩
  · rw [ObjectManager.loadTo, heq]
    simp only [arraySet_natCast hi, ok_bind, pure_eq_ok]
  · refine hd.tally_add (List.mem_map_of_mem (f := Prod.snd) hp) k (htally field N hf hN)
      (fun q hq => ?_) ?_
    · simp [Heap.updateRefStats, Heap.updateLoadStats, Heap.modify_page_of_ne _ _ hq]
    · simp [Heap.updateRefStats, Heap.updateLoadStats, hk]

end OnDisk

/-! ## The memory -/

/-- The slots in use of the memory hold the pages `slots`, whose addresses differ, and which are those
    of their addresses on the disk. -/
structure Inventory {σ : Type} (n : ℕ) (m : ObjectManager σ) (slots : List PageRef) : Prop
    extends OnDisk m where
  memory_eq : m.memory = slots.map some ++ List.replicate (n - slots.length) none
  pointer_eq : m.memoryPointer = slots.length
  length_le : slots.length ≤ n
  nodup : (slots.map m.address).Nodup
  stored : ∀ p ∈ slots, (m.address p, p) ∈ m.disk

namespace Inventory

variable {σ : Type} {P : IPageReplacementPolicy σ} {n : ℕ} {m m' : ObjectManager σ}
  {slots : List PageRef} {a : ℤ} {p q new : PageRef} {o : Outcome ℤ}

/-- A new manager has no page in memory. -/
theorem make (policy : σ) (clock : LogicalClock) : Inventory n (.make policy n clock) [] where
  keys := List.nodup_nil
  address_eq _ he := absurd he List.not_mem_nil
  memory_eq := rfl
  pointer_eq := rfl
  length_le := Nat.zero_le n
  nodup := List.nodup_nil
  stored _ hp := absurd hp List.not_mem_nil

/-- The number of frames does not change. -/
theorem length_memory (h : Inventory n m slots) : m.memory.length = n := by
  have := h.length_le
  rw [h.memory_eq, List.length_append, List.length_map, List.length_replicate]
  omega

/-- A page in memory is one of the page objects. -/
theorem mem_objects (h : Inventory n m slots) (hp : p ∈ slots) : p ∈ m.objects :=
  List.mem_map_of_mem (f := Prod.snd) (h.stored p hp)

/-- The pages in memory are the ones of the frames in use. -/
theorem mem_memory (h : Inventory n m slots) : some p ∈ m.memory ↔ p ∈ slots := by
  rw [h.memory_eq, List.mem_append, List.mem_map, List.mem_replicate]
  simp

/-- No address is in memory twice. -/
theorem eq_of_address (h : Inventory n m slots) (hp : p ∈ slots) (hq : q ∈ slots)
    (heq : m.address p = m.address q) : p = q :=
  List.inj_on_of_nodup_map h.nodup hp hq heq

/-- What is found in memory has the address asked for. -/
theorem getFromMemory_of_some (h : Inventory n m slots) (hp : m.getFromMemory a = some p) :
    p ∈ slots ∧ m.address p = a := by
  have hfind := Option.join_eq_some_iff.1 hp
  have haddr := List.find?_some hfind
  rw [Option.any_some, beq_iff_eq] at haddr
  exact ⟨h.mem_memory.1 (List.mem_of_find?_eq_some hfind), haddr⟩

/-- A page in memory is found. -/
theorem getFromMemory_of_mem (h : Inventory n m slots) (hp : p ∈ slots) :
    m.getFromMemory (m.address p) = some p := by
  cases hget : m.getFromMemory (m.address p) with
  | some q =>
    obtain ⟨hq, heq⟩ := h.getFromMemory_of_some hget
    rw [h.eq_of_address hq hp heq]
  | none =>
    rcases Option.join_eq_none_iff.1 hget with hfind | hfind
    · have := List.find?_eq_none.1 hfind _ (h.mem_memory.2 hp)
      simp at this
    · have := List.find?_some hfind
      simp at this

/-- The addresses in memory. -/
theorem resident_iff (h : Inventory n m slots) : m.Resident a ↔ a ∈ slots.map m.address := by
  rw [ObjectManager.Resident, Option.isSome_iff_exists, List.mem_map]
  constructor
  · rintro ⟨p, hp⟩
    exact ⟨p, h.getFromMemory_of_some hp⟩
  · rintro ⟨p, hp, rfl⟩
    exact ⟨p, h.getFromMemory_of_mem hp⟩

/-- The position found is that of the page: no other page in memory has its address. -/
theorem evict_of_mem (h : Inventory n m slots) (hp : p ∈ slots) :
    ∃ l₁ l₂, slots = l₁ ++ p :: l₂ ∧ m.evict p = l₁.length := by
  rw [ObjectManager.evict]
  split
  · rename_i i hi
    obtain ⟨hlt, hany, -⟩ := List.findIdx?_eq_some_iff_getElem.1 hi
    obtain ⟨q, hq, hqp⟩ := (Option.any_eq_true ..).1 hany
    have hqs : q ∈ slots := h.mem_memory.1 (hq ▸ List.getElem_mem hlt)
    obtain rfl := h.eq_of_address hqs hp (eq_of_beq hqp)
    have hget : m.memory[i]? = some (some q) := by rw [List.getElem?_eq_getElem hlt, hq]
    have hslot : slots[i]? = some q := by
      rw [h.memory_eq, List.getElem?_append, List.length_map] at hget
      split_ifs at hget
      · simpa using hget
      · simp [List.getElem?_replicate] at hget
    obtain ⟨l₁, l₂, hl, rfl⟩ := Frames.exists_split hslot
    exact ⟨l₁, l₂, hl, rfl⟩
  · rename_i hnone
    have := List.findIdx?_eq_none_iff.1 hnone _ (h.mem_memory.2 hp)
    simp at this

/-- A page is loaded, in a free slot or in that of a page that is not in `rest`. -/
theorem of_load (h : Inventory n m slots) (ha : a ∉ slots.map m.address) {slots' rest : List PageRef}
    (hd : OnDisk m') (hp : (a, p) ∈ m'.disk) (hsub : ∀ e ∈ m.disk, e ∈ m'.disk)
    (haddr : ∀ q ∈ m.objects, m'.address q = m.address q) (hslots : slots'.Perm (p :: rest))
    (hrest : rest.Sublist slots)
    (hmem : m'.memory = slots'.map some ++ List.replicate (n - slots'.length) none)
    (hptr : m'.memoryPointer = slots'.length) (hlen : slots'.length ≤ n) :
    Inventory n m' slots' ∧
      ∀ b, b ∈ slots'.map m'.address ↔ b = a ∨ b ∈ rest.map m.address := by
  have hpa : m'.address p = a := hd.address_eq _ hp
  have hold : ∀ q ∈ rest, m'.address q = m.address q := fun q hq =>
    haddr q (h.mem_objects (hrest.subset hq))
  have hmap : (slots'.map m'.address).Perm (a :: rest.map m.address) := by
    have := hslots.map m'.address
    rwa [List.map_cons, hpa, List.map_congr_left hold] at this
  refine ⟨⟨hd, hmem, hptr, hlen, ?_, fun q hq => ?_⟩, fun b => ?_⟩
  · rw [hmap.nodup_iff, List.nodup_cons]
    exact ⟨fun hr => ha ((hrest.map m.address).subset hr), (hrest.map m.address).nodup h.nodup⟩
  · rcases List.mem_cons.1 (hslots.subset hq) with rfl | hq
    · rwa [hpa]
    · rw [hold q hq]
      exact hsub _ (h.stored q (hrest.subset hq))
  · rw [hmap.mem_iff, List.mem_cons]

end Inventory

/-! ## Accesses -/

/-- What the policy finds in a full memory: a page of it. The counters stay. -/
structure Finds {σ : Type} (P : IPageReplacementPolicy σ) (m : ObjectManager σ) (page : PageRef)
    (heap : Heap) (policy : σ) : Prop where
  find_eq : P.findPageToEvict m.policy m.heap m.memory = .ok (some page, heap, policy)
  mem : some page ∈ m.memory
  counters_eq : ∀ q, (heap.page q).hit = (m.heap.page q).hit ∧
    (heap.page q).miss = (m.heap.page q).miss ∧ (heap.page q).evict = (m.heap.page q).evict

/-- What an access to the address `a` did: the pages in memory went from `slots` to `slots'`. -/
structure Moved {σ : Type} (n : ℕ) (m m' : ObjectManager σ) (a : ℤ) (o : Outcome ℤ)
    (slots slots' : List PageRef) : Prop where
  inventory : Inventory n m' slots'
  mem_iff : ∀ b, b ∈ slots'.map m'.address ↔
    b = a ∨ b ∈ slots.map m.address ∧ o ≠ .fault (some b)
  fault : ∀ v, o = .fault v → a ∉ slots.map m.address
  full : ∀ b, o = .fault (some b) → slots.length = n ∧ b ∈ slots.map m.address
  hit : ∀ N, Tally m (·.hit) N → Tally m' (·.hit) (N + 1)
  miss : ∀ N, Tally m (·.miss) N → Tally m' (·.miss) (N + if o.isFault then 1 else 0)
  evict : ∀ N, Tally m (·.evict) N → ∃ N', Tally m' (·.evict) N' ∧
    N' + slots'.length = N + slots.length + if o.isFault then 1 else 0

section access

variable {σ : Type} {P : IPageReplacementPolicy σ} {n : ℕ} {m m' : ObjectManager σ}
  {slots slots' : List PageRef} {a : ℤ} {p q new : PageRef} {o : Outcome ℤ}

namespace Inventory

/-- An access to a page in memory changes no frame. -/
theorem access_hit (h : Inventory n m slots) (hp : p ∈ slots) :
    ∃ m', m.access P new (m.address p) = .ok (m', .hit) ∧
      Moved n m m' (m.address p) .hit slots slots := by
  have htally : ∀ (field : MemoryPage → Int32) (k N : ℕ),
      (∀ q c, field (MemoryPage.updateRefStats q c) = field q + Int32.ofNat k) →
      Tally m field N → Tally { m with heap := m.heap.updateRefStats p } field (N + k) :=
    fun field k N hk hN => h.tally_add (h.mem_objects hp) k hN
      (fun q hq => by simp [Heap.updateRefStats, Heap.modify_page_of_ne _ _ hq])
      (by simp [Heap.updateRefStats, hk])
  have hkeep : ∀ x : Int32, x = x + Int32.ofNat 0 := fun x => (Int32.add_zero x).symm
  refine ⟨{ m with heap := m.heap.updateRefStats p }, ?_,
    ⟨⟨h.keys, h.address_eq⟩, h.memory_eq, h.pointer_eq, h.length_le, h.nodup, h.stored⟩,
    fun b => ?_, by simp, by simp, fun N => htally _ 1 N fun _ _ => rfl,
    fun N => htally _ 0 N fun _ _ => hkeep _,
    fun N hN => ⟨N, htally _ 0 N (fun _ _ => hkeep _) hN, rfl⟩⟩
  · rw [ObjectManager.access, h.getFromMemory_of_mem hp]
  · simp only [ne_eq, reduceCtorEq, not_false_eq_true, and_true, iff_or_self]
    rintro rfl
    exact List.mem_map_of_mem hp

/-- An address that is not in memory is not found. -/
theorem getFromMemory_eq_none (h : Inventory n m slots) (ha : a ∉ slots.map m.address) :
    m.getFromMemory a = none := by
  rw [← Option.not_isSome_iff_eq_none]
  exact mt h.resident_iff.1 ha

/-- A fault while there is a free frame takes the next one. -/
theorem access_free (h : Inventory n m slots) (hnew : new ∉ m.objects)
    (ha : a ∉ slots.map m.address) (hlt : slots.length < n) :
    ∃ m' slots', m.access P new a = .ok (m', .fault none) ∧
      Moved n m m' a (.fault none) slots slots' := by
  have hfull : m.memoryPointer < m.memory.length := by
    rwa [h.length_memory, h.pointer_eq]
  have hd : OnDisk { m with memoryPointer := m.memoryPointer + 1 } := ⟨h.keys, h.address_eq⟩
  obtain ⟨disk, address, heap, p, heq, hd', hp, hsub, haddr, htally⟩ := hd.loadTo hnew a hfull
  have hmemory : m.memory.set m.memoryPointer (some p) =
      (slots ++ [p]).map some ++ List.replicate (n - (slots ++ [p]).length) none := by
    obtain ⟨k, hk⟩ : ∃ k, n - slots.length = k + 1 := ⟨n - slots.length - 1, by omega⟩
    rw [h.memory_eq, h.pointer_eq, List.set_append_right _ _ (by simp), List.length_map,
      Nat.sub_self, hk, List.replicate_succ, List.set_cons_zero, List.length_append,
      List.length_singleton, ← Nat.sub_sub, hk, Nat.add_sub_cancel]
    simp
  obtain ⟨h', hmem⟩ := h.of_load ha hd' hp hsub haddr (List.perm_append_singleton p slots)
    (List.Sublist.refl slots) hmemory (by simp [h.pointer_eq]) (by simpa using hlt)
  refine ⟨_, slots ++ [p], ?_, h', fun b => ?_, fun _ _ => ha, by simp,
    fun N => htally _ 1 N rfl fun _ _ _ => rfl, fun N => htally _ 1 N rfl fun _ _ _ => rfl,
    fun N hN => ⟨N, htally _ 0 N rfl (fun _ _ _ => (Int32.add_zero _).symm) hN, ?_⟩⟩
  · rw [ObjectManager.access, h.getFromMemory_eq_none ha]
    simp only [ObjectManager.freePosition, if_neg (not_le.2 hfull), ok_bind]
    rw [heq]
    rfl
  · rw [hmem]
    simp
  · rw [List.length_append]
    rfl

/-- A fault while there is none takes the frame of the victim. -/
theorem access_full (h : Inventory n m slots) (hnew : new ∉ m.objects)
    (ha : a ∉ slots.map m.address) (hlen : slots.length = n) {heap : Heap} {policy : σ}
    (hq : Finds P m q heap policy) :
    ∃ m' slots', m.access P new a = .ok (m', .fault (some (m.address q))) ∧
      Moved n m m' a (.fault (some (m.address q))) slots slots' := by
  have hqs := h.mem_memory.1 hq.mem
  have hfull : m.memory.length ≤ m.memoryPointer := by
    rw [h.length_memory, h.pointer_eq, hlen]
  let m₁ : ObjectManager σ := { m with heap := heap.updateEvictStats q, policy }
  have h₁ : Inventory n m₁ slots :=
    ⟨⟨h.keys, h.address_eq⟩, h.memory_eq, h.pointer_eq, h.length_le, h.nodup, h.stored⟩
  -- The counters that the eviction changes.
  have htally₁ : ∀ (field : MemoryPage → Int32) (k N : ℕ),
      (∀ p, field (heap.page p) = field (m.heap.page p)) →
      (∀ p, field (MemoryPage.updateEvictStats p) = field p + Int32.ofNat k) →
      Tally m field N → Tally m₁ field (N + k) := fun field k N hf hk hN =>
    h.tally_of_find (h.mem_objects hqs) k hN hf hk
  have hkeep : ∀ x : Int32, x = x + Int32.ofNat 0 := fun x => (Int32.add_zero x).symm
  obtain ⟨l₁, l₂, hslots, hevict⟩ := h₁.evict_of_mem hqs
  have hlt : l₁.length < m₁.memory.length := by
    rw [h₁.length_memory, ← hlen, hslots]
    simp
  obtain ⟨disk, address, heap', p, heq, hd', hp, hsub, haddr, htally⟩ :=
    h₁.toOnDisk.loadTo hnew a hlt
  have hlen' : (l₁ ++ p :: l₂).length = n := by
    rw [← hlen, hslots]
    simp
  have hmemory : m₁.memory.set l₁.length (some p) = (l₁ ++ p :: l₂).map some ++
      List.replicate (n - (l₁ ++ p :: l₂).length) none := by
    rw [h₁.memory_eq, hslots]
    simp
  have hperm : (l₁ ++ p :: l₂).Perm (p :: (l₁ ++ l₂)) := List.perm_middle
  obtain ⟨h', hmem⟩ := h₁.of_load ha hd' hp hsub haddr hperm (by simp [hslots]) hmemory
    (by rw [hlen', ← hlen]; exact h.pointer_eq) hlen'.le
  refine ⟨_, l₁ ++ p :: l₂, ?_, h', fun b => ?_, fun _ _ => ha, fun b hb => ?_, fun N hN => ?_,
    fun N hN => ?_, fun N hN => ⟨N + 1, ?_, ?_⟩⟩
  · rw [ObjectManager.access, h.getFromMemory_eq_none ha]
    simp only [ObjectManager.freePosition, if_pos hfull, hq.find_eq, ok_bind, deref_some,
      pure_eq_ok]
    rw [show ObjectManager.evict _ q = _ from hevict]
    rw [heq]
    rfl
  · have hperm : (slots.map m.address).Perm (m.address q :: (l₁ ++ l₂).map m.address) := by
      rw [hslots]
      exact List.perm_middle.map m.address
    have hnot := (List.nodup_cons.1 (hperm.nodup_iff.1 h.nodup)).1
    rw [hmem, hperm.mem_iff, List.mem_cons, ne_eq, Outcome.fault.injEq, Option.some.injEq]
    refine or_congr_right ⟨fun hb => ⟨.inr hb, fun hqb => hnot (hqb ▸ hb)⟩, fun hb => ?_⟩
    exact hb.1.resolve_left (Ne.symm hb.2)
  · obtain rfl := Option.some.inj (Outcome.fault.inj hb)
    exact ⟨hlen, List.mem_map_of_mem hqs⟩
  · exact htally _ 1 N rfl (fun _ _ _ => rfl)
      (htally₁ _ 0 N (fun r => (hq.counters_eq r).1) (fun _ => hkeep _) hN)
  · exact htally _ 1 N rfl (fun _ _ _ => rfl)
      (htally₁ _ 0 N (fun r => (hq.counters_eq r).2.1) (fun _ => hkeep _) hN)
  · exact htally _ 0 (N + 1) rfl (fun _ _ _ => hkeep _)
      (htally₁ _ 1 N (fun r => (hq.counters_eq r).2.2) (fun _ => rfl) hN)
  · rw [hlen', hlen]
    exact Nat.add_right_comm N 1 n

/-- Every access is served, if the policy finds a page when memory is full. -/
theorem access (h : Inventory n m slots) (hnew : new ∉ m.objects)
    (hfind : m.memory.length ≤ m.memoryPointer → ∃ q heap policy, Finds P m q heap policy) (a : ℤ) :
    ∃ m' o slots', m.access P new a = .ok (m', o) ∧ Moved n m m' a o slots slots' := by
  by_cases ha : a ∈ slots.map m.address
  · obtain ⟨p, hp, rfl⟩ := List.mem_map.1 ha
    obtain ⟨m', heq, hm'⟩ := h.access_hit hp
    exact ⟨m', .hit, slots, heq, hm'⟩
  rcases h.length_le.lt_or_eq with hlt | hlen
  · obtain ⟨m', slots', heq, hm'⟩ := h.access_free hnew ha hlt
    exact ⟨m', _, slots', heq, hm'⟩
  · obtain ⟨q, heap, policy, hq⟩ := hfind (by rw [h.length_memory, h.pointer_eq, hlen])
    obtain ⟨m', slots', heq, hm'⟩ := h.access_full hnew ha hlen hq
    exact ⟨m', _, slots', heq, hm'⟩

end Inventory

end access

/-! ## Runs -/

section run

variable {σ : Type} {P : IPageReplacementPolicy σ} {n : ℕ} {policy : σ} {clock : LogicalClock}
  {m : ObjectManager σ} {calls : List (ℤ × Outcome ℤ)}

/-- In the runs of a manager of capacity `n`, the policy finds a page whenever memory is full. -/
def FindsAlways (n : ℕ) (P : IPageReplacementPolicy σ) (policy : σ) (clock : LogicalClock) : Prop :=
  ∀ m, (ObjectSystem n P policy clock).Reachable m → m.memory.length ≤ m.memoryPointer →
    ∃ q heap policy, Finds P m q heap policy

/-- The memory and the counters after the accesses `calls`. -/
structure Accounted (n : ℕ) (m : ObjectManager σ) (slots : List PageRef)
    (calls : List (ℤ × Outcome ℤ)) : Prop where
  inventory : Inventory n m slots
  hit : Tally m (·.hit) calls.length
  miss : Tally m (·.miss) (faults (calls.map Prod.snd))
  evict : ∃ N, Tally m (·.evict) N ∧ N + slots.length = faults (calls.map Prod.snd)

/-- One access keeps the books, if the policy finds a page when memory is full. -/
theorem Accounted.step {m' : ObjectManager σ} {slots : List PageRef} {i : ℤ × Outcome ℤ}
    (h : Accounted n m slots calls)
    (hfind : m.memory.length ≤ m.memoryPointer → ∃ q heap policy, Finds P m q heap policy)
    (hstep : (ObjectSystem n P policy clock).step m i m') :
    ∃ slots', Accounted n m' slots' (calls ++ [i]) := by
  obtain ⟨new, hnew, heq⟩ := hstep
  obtain ⟨m₁, o, slots', heq', hm⟩ := h.inventory.access hnew hfind i.1
  obtain ⟨rfl, rfl⟩ := Prod.mk.inj (Except.ok.inj (heq.symm.trans heq'))
  have hfaults : faults ((calls ++ [i]).map Prod.snd) =
      faults (calls.map Prod.snd) + if i.2.isFault then 1 else 0 := by
    rw [List.map_append, faults, faults, List.countP_append]
    simp
  obtain ⟨N, hN, hlen⟩ := h.evict
  obtain ⟨N', hN', hlen'⟩ := hm.evict N hN
  refine ⟨slots', hm.inventory, ?_, ?_, N', hN', ?_⟩
  · rw [List.length_append]
    exact hm.hit _ h.hit
  · rw [hfaults]
    exact hm.miss _ h.miss
  · rw [hlen', hlen, hfaults]

/-- And so does a run of accesses. -/
theorem Accounted.run {m' : ObjectManager σ} {slots : List PageRef} {is : List (ℤ × Outcome ℤ)}
    (hP : FindsAlways n P policy clock) (hm : (ObjectSystem n P policy clock).Reachable m)
    (h : Accounted n m slots calls)
    (hrun : (ObjectSystem n P policy clock).RunBy (fun _ _ => True) m is m') :
    ∃ slots', Accounted n m' slots' (calls ++ is) := by
  induction hrun generalizing slots calls with
  | nil => exact ⟨slots, by rwa [List.append_nil]⟩
  | cons _ hstep _ ih =>
    obtain ⟨slots₁, h₁⟩ := h.step (hP _ hm) hstep
    obtain ⟨slots', h'⟩ := ih (hm.step trivial hstep) h₁
    exact ⟨slots', by rwa [List.append_assoc] at h'⟩

end run

/-! ## LRU -/

/-- No page has been referenced later than now. -/
def TimesLe (h : Heap) : Prop := ∀ q, h.time q ≤ h.clock.current

namespace TimesLe

variable {h : Heap} {p : PageRef}

/-- A page is stamped, or its stamp is kept. -/
theorem modify (h' : TimesLe h) {f : MemoryPage → MemoryPage} {h₁ : Heap}
    (hpage : h₁.page = Function.update h.page p (f (h.page p)))
    (hclock : h.clock.current ≤ h₁.clock.current)
    (hf : (f (h.page p)).time ≤ h₁.clock.current) : TimesLe h₁ := fun q => by
  rw [Heap.time, hpage, Function.update_apply]
  split_ifs
  · exact hf
  · exact (h' q).trans hclock

/-- An access is stamped with the present time. -/
theorem updateRefStats (h' : TimesLe h) (p : PageRef) : TimesLe (h.updateRefStats p) :=
  h'.modify (f := (·.updateRefStats h.clock)) rfl (Nat.le_succ _) le_rfl

/-- So is a load. -/
theorem updateLoadStats (h' : TimesLe h) (p : PageRef) : TimesLe (h.updateLoadStats p) :=
  h'.modify (f := (·.updateLoadStats h.clock)) rfl (Nat.le_succ _) le_rfl

/-- So is an eviction. -/
theorem updateEvictStats (h' : TimesLe h) (p : PageRef) : TimesLe (h.updateEvictStats p) :=
  h'.modify rfl le_rfl (h' p)

end TimesLe

/-- No page has a time of the future after it has been read from the disk. -/
theorem getFromDisk_timesLe {σ : Type} {m : ObjectManager σ} (h : TimesLe m.heap) (new : PageRef)
    (a : ℤ) : TimesLe (m.getFromDisk new a).1.heap := by
  rw [ObjectManager.getFromDisk]
  split
  · exact h
  · exact h.modify (f := fun _ => {}) rfl le_rfl (Nat.zero_le _)

/-- An access keeps the times, if the policy writes nothing. -/
theorem access_timesLe {σ : Type} {P : IPageReplacementPolicy σ} {m m' : ObjectManager σ}
    {new : PageRef} {a : ℤ} {o : Outcome ℤ}
    (hfind : ∀ r, P.findPageToEvict m.policy m.heap m.memory = .ok r → r.2.1 = m.heap)
    (heq : m.access P new a = .ok (m', o)) (h : TimesLe m.heap) : TimesLe m'.heap := by
  rw [ObjectManager.access] at heq
  split at heq
  · obtain ⟨⟨m₁, i, v⟩, hfree, heq⟩ := bind_eq_ok heq
    obtain ⟨m₂, hload, heq⟩ := bind_eq_ok heq
    obtain ⟨rfl, -⟩ := Prod.mk.inj (Except.ok.inj heq)
    have h₁ : TimesLe m₁.heap := by
      rw [ObjectManager.freePosition] at hfree
      split_ifs at hfree
      · obtain ⟨r, hr, hfree⟩ := bind_eq_ok hfree
        obtain ⟨p, -, hfree⟩ := bind_eq_ok hfree
        obtain ⟨rfl, -⟩ := Prod.mk.inj (Except.ok.inj hfree)
        refine TimesLe.updateEvictStats ?_ p
        rwa [hfind r hr]
      · obtain ⟨rfl, -⟩ := Prod.mk.inj (Except.ok.inj hfree)
        exact h
    rw [ObjectManager.loadTo] at hload
    obtain ⟨memory, -, hload⟩ := bind_eq_ok hload
    obtain rfl := Except.ok.inj hload
    exact ((getFromDisk_timesLe h₁ new a).updateLoadStats _).updateRefStats _
  · obtain ⟨rfl, -⟩ := Prod.mk.inj (Except.ok.inj heq)
    exact h.updateRefStats _

/-- Least recently used always finds a page in a full memory. -/
theorem lru_findsAlways {n : ℕ} (h0 : 0 < n) (clock : LogicalClock) :
    FindsAlways n lruReplacementPolicy () clock := by
  have hfinds : ∀ (m : ObjectManager Unit) slots, Inventory n m slots → TimesLe m.heap →
      m.memory.length ≤ m.memoryPointer → ∃ q, Finds lruReplacementPolicy m q m.heap () := by
    intro m slots h htimes hfull
    have hlen : slots.length = n := by
      rw [h.length_memory, h.pointer_eq] at hfull
      exact le_antisymm h.length_le hfull
    have hmemory : m.memory = slots.map some := by rw [h.memory_eq, hlen]; simp
    have hne : slots ≠ [] := List.ne_nil_of_length_pos (hlen ▸ h0)
    obtain ⟨q, hq, heq, -⟩ := lru_find hne fun p _ => htimes p
    exact ⟨q, hmemory ▸ heq, h.mem_memory.2 hq, fun _ => ⟨rfl, rfl, rfl⟩⟩
  intro m hm hfull
  obtain ⟨slots, h, htimes⟩ : ∃ slots, Inventory n m slots ∧ TimesLe m.heap := by
    refine hm.invariant (I := fun m => ∃ slots, Inventory n m slots ∧ TimesLe m.heap) ?_ ?_
    · rintro _ rfl
      exact ⟨[], .make () clock, fun _ => Nat.zero_le _⟩
    · rintro m ⟨a, o⟩ m' ⟨slots, h, htimes⟩ - ⟨new, hnew, heq⟩
      obtain ⟨m₁, o', slots', heq', hmoved⟩ := h.access hnew
        (fun hfull => (hfinds m slots h htimes hfull).imp fun q hq => ⟨_, _, hq⟩) a
      obtain ⟨rfl, rfl⟩ := Prod.mk.inj (Except.ok.inj (heq.symm.trans heq'))
      refine ⟨slots', hmoved.inventory, access_timesLe (fun r hr => ?_) heq htimes⟩
      obtain ⟨best, -, hr⟩ := bind_eq_ok hr
      obtain rfl := Except.ok.inj hr
      rfl
  exact (hfinds m slots h htimes hfull).imp fun q hq => ⟨_, _, hq⟩

/-! ## The accounts -/

/-- The memory of the manager after any accesses: the slots in use come first and hold the pages of
    distinct addresses, each of them the one on the disk. The next access is served: its page is in
    memory, and at most one other page has left, if memory was full. The statistics add up, exactly in
    the first `2 ^ 31 - 1` accesses, and after that up to multiples of `2 ^ 32`. -/
theorem memory_accounting {σ : Type} {P : IPageReplacementPolicy σ} {n : ℕ} {policy : σ}
    {clock : LogicalClock} {m : ObjectManager σ} {calls : List (ℤ × Outcome ℤ)}
    (hP : FindsAlways n P policy clock)
    (hrun : (ObjectSystem n P policy clock).RunBy (fun _ _ => True) (.make policy n clock) calls m) :
    (∃ slots : List PageRef, m.memory = slots.map some ++ List.replicate (n - slots.length) none ∧
      m.memoryPointer = slots.length ∧ slots.length ≤ n ∧ (slots.map m.address).Nodup ∧
      ∀ p ∈ slots, m.disk.lookup (m.address p) = some p) ∧
    (∀ new ∉ m.objects, ∀ a, ∃ m' o, m.access P new a = .ok (m', o) ∧ m'.Resident a ∧
      ∀ b, m.Resident b → ¬m'.Resident b →
        o = .fault (some b) ∧ m.memoryPointer = n ∧ ¬m.Resident a) ∧
    ∃ hit miss evict, m.summary = (hit, miss, evict) ∧
      (calls.length < 2 ^ 31 → hit = calls.length ∧ miss = faults (calls.map Prod.snd) ∧
        evict + m.memoryPointer = miss) ∧
      hit ≡ calls.length [ZMOD 2 ^ 32] ∧ miss ≡ faults (calls.map Prod.snd) [ZMOD 2 ^ 32] ∧
      evict + m.memoryPointer ≡ miss [ZMOD 2 ^ 32] := by
  have hm : (ObjectSystem n P policy clock).Reachable m := hrun.reachable (.init rfl)
  have hmake : Accounted n (.make policy n clock) [] [] :=
    ⟨.make policy clock, .make policy n clock _, .make policy n clock _,
      0, .make policy n clock _, rfl⟩
  obtain ⟨slots, h⟩ := hmake.run hP (.init rfl) hrun
  rw [List.nil_append] at h
  obtain ⟨N, hN, hlen⟩ := h.evict
  rw [← h.inventory.pointer_eq] at hlen
  refine ⟨⟨slots, h.inventory.memory_eq, h.inventory.pointer_eq, h.inventory.length_le,
    h.inventory.nodup, fun p hp => h.inventory.lookup_eq_some.2 (h.inventory.stored p hp)⟩,
    fun new hnew a => ?_, _, _, _, rfl, fun hlt => ?_, h.hit.total_modEq, h.miss.total_modEq, ?_⟩
  · obtain ⟨m', o, slots', heq, hmoved⟩ := h.inventory.access hnew (hP m hm) a
    refine ⟨m', o, heq, ?_, fun b hb hb' => ?_⟩
    · rw [hmoved.inventory.resident_iff, hmoved.mem_iff]
      exact .inl rfl
    · rw [h.inventory.resident_iff] at hb ⊢
      rw [hmoved.inventory.resident_iff, hmoved.mem_iff] at hb'
      have ho : o = .fault (some b) := by_contra fun ho => hb' (.inr ⟨hb, ho⟩)
      refine ⟨ho, ?_, hmoved.fault _ ho⟩
      rw [h.inventory.pointer_eq]
      exact (hmoved.full b ho).1
  · have hfaults : faults (calls.map Prod.snd) ≤ calls.length :=
      List.countP_le_length.trans_eq (List.length_map ..)
    refine ⟨h.hit.total_eq hlt, h.miss.total_eq (by omega), ?_⟩
    rw [hN.total_eq (by omega), h.miss.total_eq (by omega)]
    exact_mod_cast hlen
  · calc m.total (·.evict) + m.memoryPointer ≡ N + m.memoryPointer [ZMOD 2 ^ 32] :=
          hN.total_modEq.add_right _
      _ = faults (calls.map Prod.snd) := by exact_mod_cast hlen
      _ ≡ m.total (·.miss) [ZMOD 2 ^ 32] := h.miss.total_modEq.symm

/-- Three faults and a hit with two frames: the page of the second fault is evicted at the third one. -/
theorem memory_accounting_lru :
    ∃ m, (ObjectSystem 2 lruReplacementPolicy () {}).RunBy (fun _ _ => True) (.make () 2 {})
        [(1, .fault none), (2, .fault none), (1, .hit), (3, .fault (some 2))] m ∧
      (∃ slots : List PageRef,
        m.memory = slots.map some ++ List.replicate (2 - slots.length) none ∧
        m.memoryPointer = slots.length ∧ slots.length ≤ 2 ∧ (slots.map m.address).Nodup ∧
        ∀ p ∈ slots, m.disk.lookup (m.address p) = some p) ∧
      (∀ new ∉ m.objects, ∀ a, ∃ m' o, m.access lruReplacementPolicy new a = .ok (m', o) ∧
        m'.Resident a ∧ ∀ b, m.Resident b → ¬m'.Resident b →
          o = .fault (some b) ∧ m.memoryPointer = 2 ∧ ¬m.Resident a) ∧
      ∃ hit miss evict, m.summary = (hit, miss, evict) ∧ hit = 4 ∧ miss = 3 ∧
        evict + m.memoryPointer = miss := by
  have hrun : ∃ m, (ObjectSystem 2 lruReplacementPolicy () {}).RunBy (fun _ _ => True)
      (.make () 2 {}) [(1, .fault none), (2, .fault none), (1, .hit), (3, .fault (some 2))] m :=
    ⟨_, .cons trivial ⟨10, by decide, rfl⟩ (.cons trivial ⟨20, by decide, rfl⟩
      (.cons trivial ⟨30, by decide, rfl⟩ (.cons trivial ⟨30, by decide, rfl⟩ .nil)))⟩
  obtain ⟨m, hrun⟩ := hrun
  obtain ⟨hslots, hnext, hit, miss, evict, hsum, hexact, -⟩ :=
    memory_accounting (lru_findsAlways (by decide) {}) hrun
  exact ⟨m, hrun, hslots, hnext, hit, miss, evict, hsum, hexact (by decide)⟩

/-! ## A counter that wraps around -/

/-- The page of address 1 fills a memory of one slot, and has been referenced `k` times. -/
structure OnePage (m : ObjectManager Unit) (k : ℕ) : Prop where
  memory_eq : m.memory = [some 0]
  objects_eq : m.objects = [0]
  address_eq : m.address 0 = 1
  hit_eq : (m.heap.page 0).hit = Int32.ofNat k

/-- A manager of one slot serves the address 1 any number of times. -/
theorem OnePage.run (k : ℕ) :
    ∃ m, (ObjectSystem 1 lruReplacementPolicy () {}).RunBy (fun _ _ => True) (.make () 1 {})
      ((1, .fault none) :: List.replicate k (1, .hit)) m ∧ OnePage m (k + 1) := by
  induction k with
  | zero =>
    exact ⟨_, .cons trivial ⟨0, by decide, rfl⟩ .nil, rfl, rfl, rfl, rfl⟩
  | succ k ih =>
    obtain ⟨m, hrun, h⟩ := ih
    have hget : m.getFromMemory 1 = some 0 := by
      rw [ObjectManager.getFromMemory, h.memory_eq]
      simp [h.address_eq]
    have hstep : (ObjectSystem 1 lruReplacementPolicy () {}).step m (1, .hit)
        { m with heap := m.heap.updateRefStats 0 } :=
      ⟨1, by simp [h.objects_eq], by rw [ObjectManager.access, hget]⟩
    refine ⟨{ m with heap := m.heap.updateRefStats 0 }, ?_, h.memory_eq, h.objects_eq,
      h.address_eq, ?_⟩
    · rw [List.replicate_succ', ← List.cons_append]
      exact hrun.append (.cons trivial hstep .nil)
    · rw [Int32.ofNat_add, ← h.hit_eq]
      exact congrArg MemoryPage.hit
        (Heap.modify_page_self m.heap 0 (·.updateRefStats m.heap.clock))

/-- The page of a memory of one slot is accessed `2 ^ 31` times: its `int` counter wraps around, and
    the sum of the hits is negative. -/
theorem memory_accounting_wraps :
    FindsAlways 1 lruReplacementPolicy () {} ∧
      ∃ m calls, (ObjectSystem 1 lruReplacementPolicy () {}).RunBy (fun _ _ => True)
        (.make () 1 {}) calls m ∧ calls.length = 2 ^ 31 ∧ m.summary.1 = -2 ^ 31 := by
  obtain ⟨m, hrun, h⟩ := OnePage.run (2 ^ 31 - 1)
  refine ⟨lru_findsAlways Nat.one_pos {}, m, _, hrun, ?_, ?_⟩
  · rw [List.length_cons, List.length_replicate]
    norm_num
  · change m.total (·.hit) = _
    rw [ObjectManager.total, h.objects_eq, List.map_singleton,
      List.sum_singleton, h.hit_eq, Int32.toInt_ofNat']
    decide

end Mcpq.Simulator
