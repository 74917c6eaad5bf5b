import Mathlib.Data.List.Basic
import Mathlib.Data.List.Find
import ElfFormat.Object
import ElfFormat.Proofs.Window

/-!
# Answers of tables with the same headers

Two tables with the same headers answer the same wherever the contents that the answer is taken from
are the same (`SectionTable.sectionName_ofFn`, `SectionTable.byName_ofFn`,
`SymbolTable.indexOfName?_congr`). A text comes from one section, so nothing is asked of the others.
-/

namespace ElfFormat

namespace SectionTable

/-- The table of `count` sections, each by its position. -/
def ofFn (count nameIndex : Nat) (f : Nat → Section) : SectionTable where
  sections := ((List.range count).map f).toArray
  nameIndex := nameIndex

variable {count nameIndex : Nat} {f g : Nat → Section}

@[simp]
theorem size_ofFn : (ofFn count nameIndex f).sections.size = count := by
  simp [ofFn]

@[simp]
theorem getElem_ofFn {i : Nat} (hi : i < (ofFn count nameIndex f).sections.size) :
    (ofFn count nameIndex f).sections[i] = f i := by
  simp [ofFn]

theorem section?_ofFn (i : Nat) :
    (ofFn count nameIndex f).section? i =
      if i < count then .ok (f i) else .error (.indexOutOfRange "section" i count) := by
  unfold section?
  split
  · next s hs =>
    obtain ⟨hi, rfl⟩ := Array.getElem?_eq_some_iff.1 hs
    rw [if_pos (by simpa using hi), getElem_ofFn]
  · next hs =>
    rw [if_neg (by simpa using hs), size, size_ofFn]

/-- A text is read from one section. -/
theorem string_ofFn {index : Nat} (hg : index < count → g index = f index) (offset : Nat) :
    (ofFn count nameIndex g).string index offset =
      (ofFn count nameIndex f).string index offset := by
  unfold string stringTable
  rw [section?_ofFn, section?_ofFn]
  by_cases hi : index < count
  · rw [hg hi]
  · rw [if_neg hi, if_neg hi]

theorem sectionName_ofFn (hname : nameIndex ≠ 0 → nameIndex < count → g nameIndex = f nameIndex)
    {s t : Section} (h : t.header.name = s.header.name) :
    (ofFn count nameIndex g).sectionName t = (ofFn count nameIndex f).sectionName s := by
  have hindex : ∀ k : Nat → Section, (ofFn count nameIndex k).nameIndex = nameIndex := fun _ => rfl
  unfold sectionName
  rw [hindex, hindex, h]
  split
  · rfl
  · next h0 => exact string_ofFn (hname h0) _

theorem index_byName_ofFn (k : Nat → Section) (name : String) :
    ((ofFn count nameIndex k).byName name).map (·.index) =
      ((List.range count).find? fun i => (ofFn count nameIndex k).isNamed (k i) name).map
        fun i => (k i).index := by
  unfold byName
  rw [show (ofFn count nameIndex k).sections.toList = (List.range count).map k from rfl,
    List.find?_map, Option.map_map]
  rfl

/-- A look-up by name depends on the names alone. -/
theorem byName_ofFn (hname : nameIndex ≠ 0 → nameIndex < count → g nameIndex = f nameIndex)
    (hheader : ∀ i < count, (g i).header.name = (f i).header.name)
    (hindex : ∀ i, (g i).index = (f i).index) (name : String) :
    ((ofFn count nameIndex g).byName name).map (·.index) =
      ((ofFn count nameIndex f).byName name).map (·.index) := by
  have hp : ∀ i < count, (ofFn count nameIndex g).isNamed (g i) name =
      (ofFn count nameIndex f).isNamed (f i) name := by
    intro i hi
    rw [Bool.eq_iff_iff, isNamed_iff, isNamed_iff, sectionName_ofFn hname (hheader i hi)]
  rw [index_byName_ofFn, index_byName_ofFn, List.find?_congr fun i hi => hp i (List.mem_range.1 hi)]
  simp only [hindex]

/-- Only the section that the symbol is linked to is asked for its name. -/
theorem name_symbol_ofFn {s : Symbol}
    (hg : s.link.toNat < count → g s.link.toNat = f s.link.toNat) :
    s.name (ofFn count nameIndex g) = s.name (ofFn count nameIndex f) := by
  unfold Symbol.name
  rw [string_ofFn hg]

end SectionTable

namespace SegmentTable

/-- The table of the segments that a function gives. -/
def ofFn (count : Nat) (f : Nat → Segment) : SegmentTable where
  segments := ((List.range count).map f).toArray

variable {count : Nat} {f g : Nat → Segment}

@[simp]
theorem size_ofFn : (ofFn count f).segments.size = count := by
  simp [ofFn]

@[simp]
theorem getElem_ofFn {i : Nat} (hi : i < (ofFn count f).segments.size) :
    (ofFn count f).segments[i] = f i := by
  simp [ofFn]

theorem index_byAddress_ofFn (k : Nat → Segment) (address : UInt64) :
    ((ofFn count k).byAddress address).map (·.index) =
      ((List.range count).find? fun i =>
        (k i).header.isLoad && (k i).header.containsAddress address).map fun i => (k i).index := by
  unfold byAddress
  rw [show (ofFn count k).segments.toList = (List.range count).map k from rfl, List.find?_map,
    Option.map_map]
  rfl

/-- A look-up by address depends on the headers alone. -/
theorem byAddress_ofFn (hheader : ∀ i < count, (g i).header = (f i).header)
    (hindex : ∀ i, (g i).index = (f i).index) (address : UInt64) :
    ((ofFn count g).byAddress address).map (·.index) =
      ((ofFn count f).byAddress address).map (·.index) := by
  rw [index_byAddress_ofFn, index_byAddress_ofFn]
  simp only [hindex]
  congr 1
  refine List.find?_congr fun i hi => ?_
  rw [hheader i (List.mem_range.1 hi)]

/-- Every other type of segment names no interpreter. -/
theorem interpreter?_of_type {s : Segment} {image : Image}
    (hs : s.contents = s.header.contents image) (ht : s.header.type ≠ SegmentType.interpreter) :
    s.interpreter? = none := by
  unfold Segment.interpreter?
  split
  · next path hp =>
    rw [hs, ProgramHeader.contents] at hp
    obtain ⟨view, -, hp⟩ := bind_eq_ok_iff.1 hp
    rw [if_neg ht] at hp
    split at hp
    · obtain ⟨table, -, hp⟩ := bind_eq_ok_iff.1 hp
      cases hp
    · cases hp
  · rfl

theorem interpreter_ofFn (h : ∀ i < count, (g i).interpreter? = (f i).interpreter?) :
    (ofFn count g).interpreter? = (ofFn count f).interpreter? := by
  unfold interpreter? ofFn
  rw [List.findSome?_map, List.findSome?_map, ← List.head?_filterMap, ← List.head?_filterMap]
  exact congrArg _ (List.filterMap_congr fun i hi => h i (List.mem_range.1 hi))

end SegmentTable

theorem findIdx?_congr {α : Type} {p q : α → Bool} {l : List α} (h : ∀ a ∈ l, p a = q a) :
    l.findIdx? p = l.findIdx? q := by
  have hmap : ∀ r : α → Bool, (l.map r).findIdx? id = l.findIdx? r := fun _ => List.findIdx?_map
  rw [← hmap p, ← hmap q, List.map_congr_left h]

/-- A symbol is looked up by the names of the symbols. -/
theorem SymbolTable.indexOfName?_congr {t : SymbolTable} {x y : SectionTable}
    (h : ∀ s ∈ t.symbols, s.name x = s.name y) (name : String) :
    t.indexOfName? x name = t.indexOfName? y name := by
  refine findIdx?_congr fun s hs => ?_
  have hp : s.isNamed x name = s.isNamed y name := by
    rw [Bool.eq_iff_iff, Symbol.isNamed_iff, Symbol.isNamed_iff, h s (Array.mem_toList_iff.1 hs)]
  rw [hp]

end ElfFormat
