import ElfFormat.Draft
import ElfFormat.Proofs.Codec

/-!
# Where the parts of a written file stand

A file is written front to back, so what was placed stays where it is (`Holds.append`,
`Holds.place`). The offsets are computed from the lengths alone; that pieces end up at them is one
induction over the pieces (`holds_foldl_place`), and `Draft.bytes` is a few such steps.
-/

namespace ElfFormat

/-- The piece stands in the file at the offset. -/
def Holds (file : List UInt8) (offset : Nat) (piece : List UInt8) : Prop :=
  ∃ front rest, file = front ++ (piece ++ rest) ∧ front.length = offset

namespace Holds

variable {file piece more : List UInt8} {offset : Nat}

theorem le_length (h : Holds file offset piece) : offset + piece.length ≤ file.length := by
  obtain ⟨front, rest, rfl, rfl⟩ := h
  rw [List.length_append, List.length_append]
  omega

theorem take_drop (h : Holds file offset piece) :
    (file.drop offset).take piece.length = piece := by
  obtain ⟨front, rest, rfl, rfl⟩ := h
  rw [List.drop_left, List.take_left]

theorem behind (file piece : List UInt8) : Holds (file ++ piece) file.length piece :=
  ⟨file, [], by rw [List.append_nil], rfl⟩

theorem append (h : Holds file offset piece) (more : List UInt8) :
    Holds (file ++ more) offset piece := by
  obtain ⟨front, rest, rfl, rfl⟩ := h
  exact ⟨front, rest ++ more, by simp only [List.append_assoc], rfl⟩

theorem trans {inner : List UInt8} {position : Nat} (h : Holds file offset piece)
    (hi : Holds piece position inner) : Holds file (offset + position) inner := by
  obtain ⟨front, rest, rfl, rfl⟩ := h
  obtain ⟨front', rest', rfl, rfl⟩ := hi
  exact ⟨front ++ front', rest' ++ rest, by simp only [List.append_assoc], by simp⟩

end Holds

/-- Records of one size stand at multiples of it. -/
theorem holds_flatMap {α : Type} {f : α → List UInt8} {size : Nat} :
    ∀ {l : List α} {i : Nat} {a : α}, (∀ b ∈ l, (f b).length = size) → l[i]? = some a →
      Holds (l.flatMap f) (i * size) (f a)
  | b :: l, 0, a, _, ha => by
    obtain rfl : b = a := Option.some.inj ha
    rw [List.flatMap_cons, Nat.zero_mul]
    exact ⟨[], l.flatMap f, rfl, rfl⟩
  | b :: l, i + 1, a, hf, ha => by
    obtain ⟨front, rest, hl, hi⟩ :=
      holds_flatMap (fun c hc => hf c (List.mem_cons_of_mem b hc)) (List.getElem?_cons_succ ▸ ha)
    refine ⟨f b ++ front, rest, by rw [List.flatMap_cons, hl, List.append_assoc], ?_⟩
    rw [List.length_append, hf b List.mem_cons_self, hi, Nat.succ_mul, Nat.add_comm]

theorem length_flatMap_of_length {α : Type} {f : α → List UInt8} {size : Nat} (l : List α)
    (hf : ∀ a, (f a).length = size) : (l.flatMap f).length = l.length * size := by
  induction l with
  | nil => rw [List.flatMap_nil, List.length_nil, List.length_nil, Nat.zero_mul]
  | cons a l ih =>
    rw [List.flatMap_cons, List.length_append, hf, ih, List.length_cons, Nat.succ_mul, Nat.add_comm]

namespace Draft

variable {file piece : List UInt8} {offset : Nat}

theorem length_place (file piece : List UInt8) :
    (place file piece).length = roundUp file.length unit + piece.length := by
  have hle := le_roundUp file.length unit
  unfold place
  rw [List.length_append, List.length_append, List.length_replicate]
  omega

theorem holds_place (file piece : List UInt8) :
    Holds (place file piece) (roundUp file.length unit) piece := by
  have hle := le_roundUp file.length unit
  have h := Holds.behind (file ++ List.replicate (roundUp file.length unit - file.length) 0) piece
  rw [List.length_append, List.length_replicate, Nat.add_sub_cancel' hle] at h
  exact h

theorem holds_place_of_holds (h : Holds file offset piece) (more : List UInt8) :
    Holds (place file more) offset piece := by
  unfold place
  exact (h.append _).append more

/-- What was written once stays where it is. -/
theorem holds_foldl_of_holds (pieces : List (List UInt8)) (h : Holds file offset piece) :
    Holds (pieces.foldl place file) offset piece := by
  induction pieces generalizing file with
  | nil => exact h
  | cons p pieces ih => exact ih (holds_place_of_holds h p)

/-- The offsets that are computed from lengths are those that writing comes to. -/
theorem length_foldl_place (pieces : List (List UInt8)) (file : List UInt8) :
    (pieces.foldl place file).length = (offsets file.length pieces).2 := by
  induction pieces generalizing file with
  | nil => rfl
  | cons p pieces ih =>
    rw [List.foldl_cons, ih, length_place]
    rfl

theorem length_offsets (start : Nat) (pieces : List (List UInt8)) :
    (offsets start pieces).1.length = pieces.length := by
  induction pieces generalizing start with
  | nil => rfl
  | cons p pieces ih => exact congrArg (· + 1) (ih _)

/-- Pieces that are placed one behind the other stand at the offsets that were computed for them. -/
theorem holds_foldl_place :
    ∀ {pieces : List (List UInt8)} {file : List UInt8} {i offset : Nat} {piece : List UInt8},
      (offsets file.length pieces).1[i]? = some offset → pieces[i]? = some piece →
        Holds (pieces.foldl place file) offset piece
  | p :: pieces, file, 0, offset, piece, ho, hp => by
    obtain rfl : roundUp file.length unit = offset := Option.some.inj ho
    obtain rfl : p = piece := Option.some.inj hp
    exact holds_foldl_of_holds pieces (holds_place file p)
  | p :: pieces, file, i + 1, offset, piece, ho, hp => by
    refine @holds_foldl_place pieces (place file p) i _ _ ?_ hp
    rw [length_place]
    exact ho

/-! ## The name table -/

theorem length_nameOffsets (start : Nat) (sections : List SectionDraft) :
    (nameOffsets start sections).1.length = sections.length := by
  induction sections generalizing start with
  | nil => rfl
  | cons s sections ih => exact congrArg (· + 1) (ih _)

/-- Each name stands in the table at the offset that is computed for it. -/
theorem holds_names :
    ∀ {sections : List SectionDraft} {front rest : List UInt8} {i offset : Nat} {s : SectionDraft},
      (nameOffsets front.length sections).1[i]? = some offset → sections[i]? = some s →
        Holds (front ++ (sections.flatMap (nameBytes ·.name) ++ rest)) offset (nameBytes s.name)
  | t :: sections, front, rest, 0, offset, s, ho, hs => by
    obtain rfl : front.length = offset := Option.some.inj ho
    obtain rfl : t = s := Option.some.inj hs
    exact ⟨front, sections.flatMap (nameBytes ·.name) ++ rest,
      by rw [List.flatMap_cons, List.append_assoc], rfl⟩
  | t :: sections, front, rest, i + 1, offset, s, ho, hs => by
    have h := @holds_names sections (front ++ nameBytes t.name) rest i offset s
      (by rw [List.length_append]; exact ho) hs
    rwa [List.flatMap_cons, List.append_assoc, ← List.append_assoc front]

/-! ## The parts of the file -/

variable (d : Draft)

/-- The file header in bytes. -/
def headerBytes : List UInt8 :=
  d.header.encode (List.replicate 7 0)

def programHeaderBytes : List UInt8 :=
  d.programHeaders.flatMap (·.encode d.encoding.order d.elfClass)

def sectionHeaderBytes : List UInt8 :=
  d.sectionHeaders.flatMap (·.encode d.encoding.order d.elfClass)

/-- The file as far as the data of the segments. -/
def front : List UInt8 :=
  if d.segments.isEmpty then d.headerBytes else place d.headerBytes d.programHeaderBytes

/-- The file as far as the data of the sections. -/
def frontAndSegments : List UInt8 :=
  (d.segments.map (·.data)).foldl place d.front

/-- The file as far as the section names. -/
def frontAndData : List UInt8 :=
  (d.sections.map (·.data)).foldl place d.frontAndSegments

theorem bytes_eq : d.bytes = place (d.frontAndData ++ d.nameTable) d.sectionHeaderBytes := by
  unfold frontAndData frontAndSegments
  rw [List.foldl_map, List.foldl_map]
  rfl

theorem length_headerBytes : d.headerBytes.length = d.elfClass.headerSize :=
  FileHeader.length_encode d.header (List.length_replicate ..)

theorem length_programHeaders : d.programHeaders.length = d.segments.length := by
  rw [programHeaders, List.length_zipWith, segmentOffsets, length_offsets, List.length_map,
    Nat.min_self]

theorem length_sectionHeaders : d.sectionHeaders.length = d.sectionTotal := by
  rw [sectionHeaders, List.length_append, List.length_cons, List.length_zipWith, List.length_zip,
    length_nameOffsets, sectionOffsets, length_offsets, List.length_map, Nat.min_self, Nat.min_self]
  rfl

theorem length_programHeaderBytes :
    d.programHeaderBytes.length = d.segments.length * d.elfClass.programHeaderSize := by
  rw [programHeaderBytes, length_flatMap_of_length _ fun h => h.length_encode _ _,
    length_programHeaders]

theorem length_sectionHeaderBytes :
    d.sectionHeaderBytes.length = d.sectionTotal * d.elfClass.sectionHeaderSize := by
  rw [sectionHeaderBytes, length_flatMap_of_length _ fun h => h.length_encode _ _,
    length_sectionHeaders]

theorem length_front : d.front.length = d.dataStart := by
  unfold front dataStart programOffset
  by_cases he : d.segments.isEmpty
  · rw [if_pos he, if_pos he, length_headerBytes]
  · rw [if_neg he, if_neg he, if_neg he, length_place, length_headerBytes,
      length_programHeaderBytes]

theorem length_frontAndSegments : d.frontAndSegments.length = d.segmentOffsets.2 := by
  rw [frontAndSegments, length_foldl_place, length_front]
  rfl

theorem length_frontAndData : d.frontAndData.length = d.nameTableOffset := by
  rw [frontAndData, length_foldl_place, length_frontAndSegments]
  rfl

variable {d}

theorem holds_of_frontAndData (h : Holds d.frontAndData offset piece) :
    Holds d.bytes offset piece := by
  rw [bytes_eq]
  exact holds_place_of_holds (h.append _) _

theorem holds_of_front (h : Holds d.front offset piece) : Holds d.bytes offset piece :=
  holds_of_frontAndData (holds_foldl_of_holds _ (holds_foldl_of_holds _ h))

theorem holds_headerBytes : Holds d.bytes 0 d.headerBytes := by
  refine holds_of_front ?_
  have h : Holds d.headerBytes 0 d.headerBytes := ⟨[], [], by simp, rfl⟩
  unfold front
  by_cases he : d.segments.isEmpty
  · rw [if_pos he]
    exact h
  · rw [if_neg he]
    exact holds_place_of_holds h _

theorem holds_programHeaderBytes (hs : ¬d.segments.isEmpty) :
    Holds d.bytes d.programOffset d.programHeaderBytes := by
  refine holds_of_front ?_
  have h := holds_place d.headerBytes d.programHeaderBytes
  rw [length_headerBytes] at h
  rwa [front, if_neg hs, programOffset, if_neg hs]

theorem holds_segment {i : Nat} {s : SegmentDraft} (ho : d.segmentOffsets.1[i]? = some offset)
    (hs : d.segments[i]? = some s) : Holds d.bytes offset s.data := by
  refine holds_of_frontAndData (holds_foldl_of_holds _ ?_)
  refine holds_foldl_place (i := i) ?_ ?_
  · rw [length_front]
    exact ho
  · rw [List.getElem?_map, hs]
    rfl

/-- The data of each section stands where its header says. -/
theorem holds_section {i : Nat} {s : SectionDraft} (ho : d.sectionOffsets.1[i]? = some offset)
    (hs : d.sections[i]? = some s) : Holds d.bytes offset s.data := by
  refine holds_of_frontAndData (holds_foldl_place (i := i) ?_ ?_)
  · rw [length_frontAndSegments]
    exact ho
  · rw [List.getElem?_map, hs]
    rfl

theorem holds_nameTable : Holds d.bytes d.nameTableOffset d.nameTable := by
  have h := Holds.behind d.frontAndData d.nameTable
  rw [length_frontAndData] at h
  rw [bytes_eq]
  exact holds_place_of_holds h _

theorem holds_sectionHeaderBytes : Holds d.bytes d.sectionTableOffset d.sectionHeaderBytes := by
  have h := holds_place (d.frontAndData ++ d.nameTable) d.sectionHeaderBytes
  rw [List.length_append, length_frontAndData] at h
  rw [bytes_eq]
  exact h

end Draft

end ElfFormat
