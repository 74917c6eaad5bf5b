import ElfFormat.Proofs.Machine.Record
import ElfFormat.Proofs.RecordCodec

/-!
# Records that are cut short

A reader that takes numbers of given widths in a row fails on the first of their places that ends
past the view, and on none if all of them fit (`FieldReader.Takes.run_eq`). Along a row the offsets
grow, so that place is also the one with the least offset among those that do not fit
(`Place.firstPast?_eq_some_iff`), whatever order the record lists its fields in.

Each record has a layout, a list of its fields with their places. That the decoder follows the
layout (`FollowsLayout`) is one argument for every record: the layout is a row, the decoder takes
its widths, and a view that is long enough has the fields at their places.
-/

namespace ElfFormat

/-- A range of a record. -/
structure Place where
  offset : Nat
  width : Nat
deriving DecidableEq

namespace Place

def stop (p : Place) : Nat :=
  p.offset + p.width

/-- The places of numbers of these widths that follow each other from a position on. -/
def inRow : Nat → List Nat → List Place
  | _, [] => []
  | position, width :: widths => ⟨position, width⟩ :: inRow (position + width) widths

/-- The position behind the last of them. -/
def rowEnd : Nat → List Nat → Nat
  | position, [] => position
  | position, width :: widths => rowEnd (position + width) widths

/-- The first place of a list that ends past a view of this length. -/
def firstPast? (places : List Place) (length : Nat) : Option Place :=
  places.find? fun p => decide (length < p.stop)

/-- Of the places that end past a view, this one has the least offset. -/
structure FirstPast (places : List Place) (length : Nat) (p : Place) : Prop where
  mem : p ∈ places
  past : length < p.stop
  least : ∀ q ∈ places, length < q.stop → p.offset ≤ q.offset

variable {length : Nat} {widths : List Nat} {places : List Place} {p q : Place}

theorem firstPast?_cons_of_past (h : length < q.stop) :
    firstPast? (q :: places) length = some q := by
  simp [firstPast?, h]

theorem firstPast?_cons_of_fits (h : q.stop ≤ length) :
    firstPast? (q :: places) length = firstPast? places length := by
  simp [firstPast?, Nat.not_lt.2 h]

theorem stop_le_of_firstPast?_eq_none (h : firstPast? places length = none) :
    ∀ p ∈ places, p.stop ≤ length := by
  intro p hp
  simpa using List.find?_eq_none.1 h p hp

theorem le_offset_of_mem {position : Nat} (hp : p ∈ inRow position widths) :
    position ≤ p.offset := by
  induction widths generalizing position with
  | nil => exact absurd hp List.not_mem_nil
  | cons width widths ih =>
    rcases List.mem_cons.1 hp with rfl | hp
    · exact Nat.le_refl _
    · exact Nat.le_trans (Nat.le_add_right _ _) (ih hp)

theorem le_rowEnd (position : Nat) (widths : List Nat) : position ≤ rowEnd position widths := by
  induction widths generalizing position with
  | nil => exact Nat.le_refl _
  | cons width widths ih => exact Nat.le_trans (Nat.le_add_right _ _) (ih (position + width))

theorem stop_le_of_mem {position : Nat} (hp : p ∈ inRow position widths) :
    p.stop ≤ rowEnd position widths := by
  induction widths generalizing position with
  | nil => exact absurd hp List.not_mem_nil
  | cons width widths ih =>
    rcases List.mem_cons.1 hp with rfl | hp
    · exact le_rowEnd (position + width) widths
    · exact ih hp

/-- The last place ends where the row does. -/
theorem rowEnd_le {position : Nat} (h : position ≤ length)
    (hfit : ∀ p ∈ inRow position widths, p.stop ≤ length) : rowEnd position widths ≤ length := by
  induction widths generalizing position with
  | nil => exact h
  | cons width widths ih =>
    obtain ⟨hhead, htail⟩ := List.forall_mem_cons.1 hfit
    exact ih hhead htail

/-- Fields of at least one byte start one behind the other. -/
theorem pairwise_inRow (hpos : ∀ width ∈ widths, 0 < width) (position : Nat) :
    (inRow position widths).Pairwise (·.offset < ·.offset) := by
  induction widths generalizing position with
  | nil => exact .nil
  | cons width widths ih =>
    obtain ⟨hwidth, hwidths⟩ := List.forall_mem_cons.1 hpos
    refine .cons (fun p hp => ?_) (ih hwidths _)
    have hbehind := le_offset_of_mem hp
    show position < p.offset
    omega

/-- Where the offsets grow, the first place past the view in the list is the one with the least
offset. -/
theorem firstPast?_eq_some_iff (h : places.Pairwise (·.offset < ·.offset)) :
    firstPast? places length = some p ↔ FirstPast places length p := by
  induction places with
  | nil => exact ⟨nofun, fun hp => absurd hp.mem List.not_mem_nil⟩
  | cons q places ih =>
    obtain ⟨hq, hplaces⟩ := List.pairwise_cons.1 h
    by_cases hpast : length < q.stop
    · rw [firstPast?_cons_of_past hpast]
      constructor
      · rintro ⟨⟩
        refine ⟨List.mem_cons_self, hpast, fun r hr _ => ?_⟩
        rcases List.mem_cons.1 hr with rfl | hr
        · exact Nat.le_refl _
        · exact Nat.le_of_lt (hq r hr)
      · intro hp
        rcases List.mem_cons.1 hp.mem with rfl | hmem
        · rfl
        · -- A later place has the greater offset, and `q` does not fit either.
          have hle := hp.least q List.mem_cons_self hpast
          have hlt := hq p hmem
          omega
    · rw [firstPast?_cons_of_fits (Nat.not_lt.1 hpast), ih hplaces]
      constructor
      · rintro ⟨hmem, hp, hleast⟩
        refine ⟨List.mem_cons_of_mem _ hmem, hp, fun r hr hrpast => ?_⟩
        rcases List.mem_cons.1 hr with rfl | hr
        · exact absurd hrpast hpast
        · exact hleast r hr hrpast
      · rintro ⟨hmem, hp, hleast⟩
        rcases List.mem_cons.1 hmem with rfl | hmem
        · exact absurd hp hpast
        · exact ⟨hmem, hp, fun r hr => hleast r (List.mem_cons_of_mem _ hr)⟩

end Place

/-- The reader takes numbers of these widths, each from where the last one ended, and nothing
else. -/
inductive FieldReader.Takes {α : Type} : FieldReader α → List Nat → Prop where
  | done (a : α) : Takes (pure a) []
  | next {γ : Type} (width : Nat) (make : Nat → γ) {rest : γ → FieldReader α} {widths : List Nat}
      (h : ∀ a, Takes (rest a) widths) :
      Takes ((do return make (← number width)) >>= rest) (width :: widths)

/-- The first place that ends past the view is where reading fails, if there is one. -/
theorem FieldReader.Takes.run_eq {α : Type} {read : FieldReader α} {widths : List Nat}
    (h : read.Takes widths) (v : View) (position : Nat) :
    match Place.firstPast? (Place.inRow position widths) v.length with
    | some p => read.run v position = .error (.outOfBounds p.offset p.width v.length)
    | none => ∃ a, read.run v position = .ok a := by
  induction h generalizing position with
  | done a => exact ⟨a, rfl⟩
  | next width make h ih =>
    rw [run_next, View.number_eq, Place.inRow]
    by_cases hfits : position + width ≤ v.length
    · rw [Place.firstPast?_cons_of_fits hfits, if_pos hfits]
      exact ih _ _
    · rw [Place.firstPast?_cons_of_past (Nat.not_le.1 hfits), if_neg hfits]
      rfl

section Takes

variable {α : Type} {read : FieldReader α} {widths : List Nat} {v : View}

theorem FieldReader.Takes.exists_run_iff (h : read.Takes widths) {position : Nat}
    (hposition : position ≤ v.length) :
    (∃ a, read.run v position = .ok a) ↔ Place.rowEnd position widths ≤ v.length := by
  have hrun := h.run_eq v position
  split at hrun
  · next p hp =>
    have hstop := Place.stop_le_of_mem (List.mem_of_find?_eq_some hp)
    have hpast : v.length < p.stop := by simpa using List.find?_some hp
    refine ⟨fun ⟨a, ha⟩ => ?_, fun hle => ?_⟩
    · rw [ha] at hrun
      cases hrun
    · omega
  · next hnone =>
    exact ⟨fun _ => Place.rowEnd_le hposition (Place.stop_le_of_firstPast?_eq_none hnone),
      fun _ => hrun⟩

/-- The first field that does not fit is the failure. -/
theorem FieldReader.Takes.run_eq_error_iff (h : read.Takes widths)
    (hpos : ∀ width ∈ widths, 0 < width) {position : Nat} {e : Error} :
    read.run v position = .error e ↔
      ∃ p, Place.FirstPast (Place.inRow position widths) v.length p ∧
        e = .outOfBounds p.offset p.width v.length := by
  simp only [← Place.firstPast?_eq_some_iff (Place.pairwise_inRow hpos position)]
  have hrun := h.run_eq v position
  split at hrun
  · next p hp => simp [hp, hrun, eq_comm]
  · next hnone =>
    obtain ⟨a, ha⟩ := hrun
    simp [hnone, ha]

end Takes

/-! ## Layouts -/

/-- A field of a record: its place, and the number that the record has from there. -/
structure RecordField (α : Type) extends Place where
  value : α → Nat

/-- The decoder needs the fields of the layout and no more. A view that is too short for one fails
on the one that comes first in the file; any other gives the numbers at the places of the fields,
and bytes behind the record have no part in it. -/
structure FollowsLayout {α : Type} (parse : View → Except Error α) (layout : List (RecordField α))
    (size : Nat) : Prop where
  ok_iff : ∀ v, (∃ a, parse v = .ok a) ↔ size ≤ v.length
  error_iff : ∀ v e, parse v = .error e ↔
    ∃ p, Place.FirstPast (layout.map (·.toPlace)) v.length p ∧
      e = .outOfBounds p.offset p.width v.length
  stop_le : ∀ f ∈ layout, f.stop ≤ size
  value_eq : ∀ v a, parse v = .ok a → ∀ f ∈ layout, v.number f.offset f.width = .ok (f.value a)
  congr : ∀ v w, v.order = w.order → size ≤ v.length → v.toList.take size = w.toList.take size →
    parse v = parse w

/-- A layout without gaps is followed by the reader that takes its widths. -/
theorem FieldReader.Takes.follows {α : Type} {read : FieldReader α} {layout : List (RecordField α)}
    {size : Nat} {write : ByteOrder → α → List UInt8} {Fits : α → Prop} {ofView : View → α}
    (h : read.Takes (layout.map (·.width))) (hpos : ∀ width ∈ layout.map (·.width), 0 < width)
    (row : Place.inRow 0 (layout.map (·.width)) = layout.map (·.toPlace))
    (hsize : Place.rowEnd 0 (layout.map (·.width)) = size)
    (codec : Codec (read.run · 0) write Fits size)
    (hparse : ∀ v, size ≤ v.length → read.run v 0 = .ok (ofView v))
    (values : ∀ v, ∀ f ∈ layout, v.numberAt f.offset f.width = f.value (ofView v)) :
    FollowsLayout (read.run · 0) layout size := by
  have hok : ∀ v, (∃ a, read.run v 0 = .ok a) ↔ size ≤ v.length := by
    intro v
    rw [h.exists_run_iff (Nat.zero_le _), hsize]
  have hstop : ∀ f ∈ layout, f.stop ≤ size := by
    intro f hf
    have hmem : f.toPlace ∈ Place.inRow 0 (layout.map (·.width)) := row ▸ List.mem_map_of_mem hf
    exact Nat.le_trans (Place.stop_le_of_mem hmem) (Nat.le_of_eq hsize)
  refine ⟨hok, ?_, hstop, ?_, fun v w => codec.parse_congr⟩
  · intro v e
    rw [h.run_eq_error_iff hpos, row]
  · intro v a ha f hf
    have hl := (hok v).1 ⟨a, ha⟩
    have hfits : f.offset + f.width ≤ v.length := Nat.le_trans (hstop f hf) hl
    obtain rfl := Except.ok.inj (ha.symm.trans (hparse v hl))
    rw [View.number_eq, if_pos hfits]
    exact congrArg Except.ok (values v f hf)

namespace SectionHeader

/-- Where a section header has its fields. -/
def layout : Class → List (RecordField SectionHeader)
  | .elf32 =>
    [⟨⟨0, 4⟩, (·.name.toNat)⟩, ⟨⟨4, 4⟩, (·.type.toNat)⟩, ⟨⟨8, 4⟩, (·.flags.toNat)⟩,
      ⟨⟨12, 4⟩, (·.address.toNat)⟩, ⟨⟨16, 4⟩, (·.offset.toNat)⟩, ⟨⟨20, 4⟩, (·.size.toNat)⟩,
      ⟨⟨24, 4⟩, (·.link.toNat)⟩, ⟨⟨28, 4⟩, (·.info.toNat)⟩, ⟨⟨32, 4⟩, (·.alignment.toNat)⟩,
      ⟨⟨36, 4⟩, (·.entrySize.toNat)⟩]
  | .elf64 =>
    [⟨⟨0, 4⟩, (·.name.toNat)⟩, ⟨⟨4, 4⟩, (·.type.toNat)⟩, ⟨⟨8, 8⟩, (·.flags.toNat)⟩,
      ⟨⟨16, 8⟩, (·.address.toNat)⟩, ⟨⟨24, 8⟩, (·.offset.toNat)⟩, ⟨⟨32, 8⟩, (·.size.toNat)⟩,
      ⟨⟨40, 4⟩, (·.link.toNat)⟩, ⟨⟨44, 4⟩, (·.info.toNat)⟩, ⟨⟨48, 8⟩, (·.alignment.toNat)⟩,
      ⟨⟨56, 8⟩, (·.entrySize.toNat)⟩]

theorem takes (c : Class) : (fields c).Takes ((layout c).map (·.width)) := by
  cases c <;>
    repeat' first
      | exact .done _
      | refine .next _ _ fun _ => ?_

theorem follows_layout (c : Class) : FollowsLayout (parse · c) (layout c) c.sectionHeaderSize := by
  refine (takes c).follows ?_ ?_ ?_ (codec c) (fun v hl => parse_eq hl) ?_
  · cases c <;> simp [layout]
  · cases c <;> rfl
  · cases c <;> rfl
  · intro v
    cases c <;> simp [layout, ofView, View.toNat_u32At, View.toNat_wordAt, Class.wordSize]

end SectionHeader

namespace ProgramHeader

/-- Where a program header has its fields; the flags are the last but one in 32-bit files. -/
def layout : Class → List (RecordField ProgramHeader)
  | .elf32 =>
    [⟨⟨0, 4⟩, (·.type.toNat)⟩, ⟨⟨4, 4⟩, (·.offset.toNat)⟩, ⟨⟨8, 4⟩, (·.virtualAddress.toNat)⟩,
      ⟨⟨12, 4⟩, (·.physicalAddress.toNat)⟩, ⟨⟨16, 4⟩, (·.fileSize.toNat)⟩,
      ⟨⟨20, 4⟩, (·.memorySize.toNat)⟩, ⟨⟨24, 4⟩, (·.flags.toNat)⟩, ⟨⟨28, 4⟩, (·.alignment.toNat)⟩]
  | .elf64 =>
    [⟨⟨0, 4⟩, (·.type.toNat)⟩, ⟨⟨4, 4⟩, (·.flags.toNat)⟩, ⟨⟨8, 8⟩, (·.offset.toNat)⟩,
      ⟨⟨16, 8⟩, (·.virtualAddress.toNat)⟩, ⟨⟨24, 8⟩, (·.physicalAddress.toNat)⟩,
      ⟨⟨32, 8⟩, (·.fileSize.toNat)⟩, ⟨⟨40, 8⟩, (·.memorySize.toNat)⟩,
      ⟨⟨48, 8⟩, (·.alignment.toNat)⟩]

theorem takes (c : Class) : (fields c).Takes ((layout c).map (·.width)) := by
  cases c <;>
    repeat' first
      | exact .done _
      | refine .next _ _ fun _ => ?_

theorem follows_layout (c : Class) : FollowsLayout (parse · c) (layout c) c.programHeaderSize := by
  refine (takes c).follows ?_ ?_ ?_ (codec c) (fun v hl => parse_eq hl) ?_
  · cases c <;> simp [layout]
  · cases c <;> rfl
  · cases c <;> rfl
  · intro v
    cases c <;> simp [layout, ofView, View.toNat_u32At, View.toNat_wordAt, Class.wordSize]

end ProgramHeader

namespace Symbol

/-- Where a symbol has its fields; the value and the size are the last two in 64-bit files. -/
def layout : Class → List (RecordField Symbol)
  | .elf32 =>
    [⟨⟨0, 4⟩, (·.nameOffset.toNat)⟩, ⟨⟨4, 4⟩, (·.value.toNat)⟩, ⟨⟨8, 4⟩, (·.size.toNat)⟩,
      ⟨⟨12, 1⟩, (·.info.toNat)⟩, ⟨⟨13, 1⟩, (·.other.toNat)⟩, ⟨⟨14, 2⟩, (·.sectionIndex.toNat)⟩]
  | .elf64 =>
    [⟨⟨0, 4⟩, (·.nameOffset.toNat)⟩, ⟨⟨4, 1⟩, (·.info.toNat)⟩, ⟨⟨5, 1⟩, (·.other.toNat)⟩,
      ⟨⟨6, 2⟩, (·.sectionIndex.toNat)⟩, ⟨⟨8, 8⟩, (·.value.toNat)⟩, ⟨⟨16, 8⟩, (·.size.toNat)⟩]

theorem takes (link : UInt32) (c : Class) : (fields link c).Takes ((layout c).map (·.width)) := by
  cases c <;>
    repeat' first
      | exact .done _
      | refine .next _ _ fun _ => ?_

theorem follows_layout (link : UInt32) (c : Class) :
    FollowsLayout (parse · c link) (layout c) c.symbolSize := by
  refine (takes link c).follows ?_ ?_ ?_ (codec c link) (fun v hl => parse_eq hl link) ?_
  · cases c <;> simp [layout]
  · cases c <;> rfl
  · cases c <;> rfl
  · intro v
    cases c <;> simp [layout, ofView, View.toNat_u8At, View.toNat_u16At, View.toNat_u32At,
      View.toNat_wordAt, Class.wordSize]

end Symbol

/-- In either class, the records of the three tables are decoded from as many bytes as they have,
and a view that is shorter fails on the field that is the first in the file to end past it. -/
theorem short_records_fail_first (c : Class) :
    FollowsLayout (SectionHeader.parse · c) (SectionHeader.layout c) c.sectionHeaderSize ∧
    FollowsLayout (ProgramHeader.parse · c) (ProgramHeader.layout c) c.programHeaderSize ∧
    (∀ link, FollowsLayout (Symbol.parse · c link) (Symbol.layout c) c.symbolSize) ∧
    ∀ w v, Machine.Window.Reads w v →
      Machine.Exact Eq (Machine.sectionHeader w c) (SectionHeader.parse v c) ∧
      Machine.Exact Eq (Machine.programHeader w c) (ProgramHeader.parse v c) ∧
      ∀ link, Machine.Exact Eq (Machine.symbol w link c) (Symbol.parse v c link) := by
  refine ⟨SectionHeader.follows_layout c, ProgramHeader.follows_layout c, ?_, ?_⟩
  · intro link
    exact Symbol.follows_layout link c
  · intro w v hr
    exact ⟨Machine.sectionHeader_exact hr c, Machine.programHeader_exact hr c,
      fun link => Machine.symbol_exact hr link c⟩

/-- Long enough for a symbol of either class and too short for the other records. -/
def shortRecord : Image where
  bytes := ⟨Array.replicate 26 0⟩

/-- The field at 24 is the first to end past the view in either class, of the width that the class
gives it. -/
theorem short_records_fail_first_shortRecord :
    ProgramHeader.parse shortRecord.full .elf32 = .error (.outOfBounds 24 4 26) ∧
      ProgramHeader.parse shortRecord.full .elf64 = .error (.outOfBounds 24 8 26) ∧
      (∃ s, Symbol.parse shortRecord.full .elf32 3 = .ok s ∧ s.size = 0) ∧
      ∀ mode, Machine.programHeader (.full shortRecord) .elf32 mode =
        .error (.failure (.outOfBounds 24 4 26)) := by
  obtain ⟨-, hprogram32, hsymbol32, hmachine⟩ := short_records_fail_first .elf32
  obtain ⟨-, hprogram64, -, -⟩ := short_records_fail_first .elf64
  have hlength : shortRecord.full.length = 26 := by decide +kernel
  have h32 : ProgramHeader.parse shortRecord.full .elf32 = .error (.outOfBounds 24 4 26) := by
    refine (hprogram32.error_iff _ _).2 ⟨⟨24, 4⟩, ?_, by rw [hlength]⟩
    rw [hlength]
    exact ⟨by decide, by decide, by decide⟩
  refine ⟨h32, ?_, ?_, ?_⟩
  · refine (hprogram64.error_iff _ _).2 ⟨⟨24, 8⟩, ?_, by rw [hlength]⟩
    rw [hlength]
    exact ⟨by decide, by decide, by decide⟩
  · have hlong : Class.elf32.symbolSize ≤ shortRecord.full.length := by
      rw [hlength]
      decide
    obtain ⟨s, hs⟩ := ((hsymbol32 3).ok_iff _).2 hlong
    have hvalue := (hsymbol32 3).value_eq _ s hs ⟨⟨8, 4⟩, (·.size.toNat)⟩ (by simp [Symbol.layout])
    have hnumber : shortRecord.full.number 8 4 = .ok 0 := by decide +kernel
    have hzero : 0 = s.size.toNat := Except.ok.inj (hnumber.symm.trans hvalue)
    exact ⟨s, hs, UInt64.toNat_inj.1 hzero.symm⟩
  · intro mode
    have small : shortRecord.length < 2 ^ 63 := by decide
    have hm := (hmachine _ _ (Machine.Window.full_reads small)).2.1
    rw [h32] at hm
    exact hm.eq_error mode

end ElfFormat
