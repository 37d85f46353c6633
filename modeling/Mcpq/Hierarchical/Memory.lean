import Mcpq.Hierarchical.Page

/-!
# Physical memory and page table

The class `Memory`, the frames with the bitmap of those in use, and the class `PageTable`, the
virtual memory mapping.
-/

namespace Mcpq.Hierarchical

/-- The physical memory. -/
structure Memory where
  pages : List (Option PageRef)
  bitmap : List Bool
  deriving DecidableEq, Repr

namespace Memory

/-- `new Memory(size)`. -/
def empty (size : ℕ) : Memory where
  pages := List.replicate size none
  bitmap := List.replicate size false

/-- Store a page to a frame. The page knows its frame. -/
def store (m : Memory) (h : Heap) (page : Option PageRef) (frame : ℤ) : Java (Memory × Heap) := do
  let _ ← arrayGet m.pages frame
  let h := match page with
    | some p => h.modify p ({ · with frame })
    | none => h
  let pages ← arraySet m.pages frame page
  pure (⟨pages, m.bitmap.set frame.toNat page.isSome⟩, h)

/-- The page stored at a frame. -/
def load (m : Memory) (frame : ℤ) : Java (Option PageRef) :=
  if frame < 0 then .error .indexOutOfBounds
  else if m.bitmap.getD frame.toNat false then arrayGet m.pages frame
  else .ok none

/-- The next available frame, `-1` if there is none. -/
def freeFrame (m : Memory) : ℤ :=
  if m.bitmap.count true < m.pages.length then m.bitmap.findIdx (! ·) else -1

/-! The methods, on a memory whose bitmap tells which frames are in use. -/

variable {m : Memory} {f : ℕ}

theorem load_natCast {p : PageRef} (hm : m.bitmap = m.pages.map Option.isSome)
    (hp : m.pages[f]? = some (some p)) : m.load f = .ok (some p) := by
  have hbit : m.bitmap.getD f false = true := by
    rw [hm, List.getD_eq_getElem?_getD, List.getElem?_map, hp]
    rfl
  rw [load, if_neg (by omega), Int.toNat_natCast, if_pos hbit, arrayGet_natCast hp]

theorem store_natCast (h : Heap) (page : Option PageRef) (hf : f < m.pages.length) :
    m.store h page f = .ok (⟨m.pages.set f page, m.bitmap.set f page.isSome⟩,
      match page with
      | some p => h.modify p ({ · with frame := f })
      | none => h) := by
  simp only [store, arrayGet_natCast (List.getElem?_eq_getElem hf), arraySet_natCast hf]
  rfl

theorem freeFrame_of_full (hm : m.bitmap = m.pages.map Option.isSome) (h : none ∉ m.pages) :
    m.freeFrame = -1 := by
  have hcount : m.bitmap.count true = m.pages.length := by
    rw [hm, List.count_eq_length.2, List.length_map]
    intro b hb
    obtain ⟨p, hp, rfl⟩ := List.mem_map.1 hb
    exact (Option.ne_none_iff_isSome.1 fun hn => h (hn ▸ hp)).symm
  rw [freeFrame, hcount, if_neg (lt_irrefl _)]

/-- A frame that has been cleared is free. -/
theorem none_mem_of_set {pages : List (Option PageRef)} {i : ℕ} {x : Option PageRef}
    (hi : pages[i]? = some x) (hpages : m.pages = pages.set i none) : none ∈ m.pages := by
  rw [hpages]
  exact List.mem_iff_getElem?.2 ⟨i, by simp [(List.getElem?_eq_some_iff.1 hi).1]⟩

theorem freeFrame_of_mem (hm : m.bitmap = m.pages.map Option.isSome) (h : none ∈ m.pages) :
    ∃ f : ℕ, m.freeFrame = f ∧ m.pages[f]? = some none := by
  have hmem : false ∈ m.bitmap := hm ▸ List.mem_map.2 ⟨none, h, rfl⟩
  have hcount : m.bitmap.count true < m.pages.length := by
    have hlen : m.bitmap.length = m.pages.length := by rw [hm, List.length_map]
    rw [← hlen]
    exact lt_of_le_of_ne List.count_le_length fun he =>
      absurd (List.count_eq_length.1 he false hmem) (by decide)
  have hlt : m.bitmap.findIdx (! ·) < m.bitmap.length :=
    List.findIdx_lt_length_of_exists ⟨false, hmem, rfl⟩
  refine ⟨m.bitmap.findIdx (! ·), by rw [freeFrame, if_pos hcount], ?_⟩
  have hbit := List.findIdx_getElem (w := hlt)
  simp only [hm, List.getElem_map, Bool.not_eq_true', Option.isSome_eq_false_iff,
    Option.isNone_iff_eq_none] at hbit
  rw [← hbit]
  simp only [hm]
  exact List.getElem?_eq_getElem _

end Memory

/-- The virtual memory mapping. -/
structure PageTable where
  mapping : ℤ → Option ℤ := fun _ => none

namespace PageTable

def add (t : PageTable) (address frame : ℤ) : PageTable :=
  ⟨Function.update t.mapping address (some frame)⟩

def remove (t : PageTable) (address : ℤ) : PageTable :=
  ⟨Function.update t.mapping address none⟩

/-- The frame of an address, or `-1`. -/
def lookup (t : PageTable) (address : ℤ) : ℤ := (t.mapping address).getD (-1)

end PageTable

end Mcpq.Hierarchical
