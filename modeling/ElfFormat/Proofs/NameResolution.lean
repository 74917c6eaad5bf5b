import ElfFormat.Proofs.Dispatch
import ElfFormat.Proofs.Texts
import ElfFormat.Section.Names

/-!
# Names and what they resolve to

A name is an offset into the string table that some section holds, and nothing is checked about
either number before the name is asked for. `SectionTable.Resolves` lists what can become of it,
with what decides: the index, what the section carries, the offset, and the bytes from there to the
first NUL, or to the end of the section. What is past that end has no part in it (`Section.runAt`),
so a text that is read lies in its section (`Section.HoldsText`).

In a table that decodes, the sections carry what their headers announce, so a section that holds
strings holds all of its range (`Section.view_of_strings`). With this each name resolves to what it
is read as and to nothing else (`SectionTable.string_eq_iff_resolves`).
-/

namespace ElfFormat

/-- The bytes from `offset` of the section's range to a NUL, or to the end of the range. -/
def Section.runAt (s : Section) (image : Image) (offset : Nat) : List UInt8 :=
  let range := (image.bytes.data.toList.drop s.header.offset.toNat).take s.header.size.toNat
  (range.drop offset).takeWhile (· ≠ 0)

/-- What becomes of the name at `offset` of the section at `index`. -/
inductive SectionTable.Resolves (t : SectionTable) (image : Image) (index offset : Nat) :
    Except Error String → Prop where
  | missing (outside : t.size ≤ index) :
    Resolves t image index offset (.error (.indexOutOfRange "section" index t.size))
  | broken {s : Section} (hs : t.sections[index]? = some s) {e : Error}
    (failed : s.contents = .error e) : Resolves t image index offset (.error e)
  | other {s : Section} (hs : t.sections[index]? = some s) {contents : SectionContents}
    (decoded : s.contents = .ok contents) (other : contents.form ≠ .strings) :
    Resolves t image index offset (.error (.notAStringTable index))
  | outside {s : Section} (hs : t.sections[index]? = some s) {table : StringTable}
    (decoded : s.contents = .ok (.strings table)) (outside : s.header.size.toNat ≤ offset) :
    Resolves t image index offset (.error (.outOfBounds offset 1 s.header.size.toNat))
  | foreign {s : Section} (hs : t.sections[index]? = some s) {table : StringTable}
    (decoded : s.contents = .ok (.strings table)) (inside : offset < s.header.size.toNat)
    (foreign : ∀ text, Utf8.encode text ≠ s.runAt image offset) :
    Resolves t image index offset (.error (.invalidString (s.header.offset.toNat + offset)))
  | text {s : Section} (hs : t.sections[index]? = some s) {table : StringTable}
    (decoded : s.contents = .ok (.strings table)) (inside : offset < s.header.size.toNat)
    {text : String} (run : Utf8.encode text = s.runAt image offset) :
    Resolves t image index offset (.ok text)

/-! ## Texts in their section -/

/-- The section has the text at `offset`, up to a NUL or up to its end. -/
structure Section.HoldsText (s : Section) (image : Image) (offset : Nat) (text : String) :
    Prop where
  range_le : s.header.offset.toNat + s.header.size.toNat ≤ image.length
  inside : offset + (Utf8.encode text).length ≤ s.header.size.toNat
  bytes_eq : (image.bytes.data.toList.drop (s.header.offset.toNat + offset)).take
    (Utf8.encode text).length = Utf8.encode text
  noNul : '\x00' ∉ text.toList
  ends : offset + (Utf8.encode text).length = s.header.size.toNat ∨
    image.bytes.data.toList[s.header.offset.toNat + offset + (Utf8.encode text).length]? = some 0

theorem Utf8.zero_mem_encode {text : String} (h : '\x00' ∈ text.toList) :
    0 ∈ encode text :=
  List.mem_flatMap.2 ⟨_, h, by decide⟩

theorem Section.holdsText {s : Section} {image : Image} {offset : Nat} {text : String}
    (range_le : s.header.offset.toNat + s.header.size.toNat ≤ image.length)
    (inside : offset < s.header.size.toNat) (run : Utf8.encode text = s.runAt image offset) :
    s.HoldsText image offset text := by
  have hsize : image.bytes.data.toList.length = image.length := rfl
  let bytes := image.bytes.data.toList.drop (s.header.offset.toNat + offset)
  have hrun : s.runAt image offset =
      (bytes.take (s.header.size.toNat - offset)).takeWhile (· ≠ 0) := by
    show List.takeWhile _ (List.drop _ (List.take _ _)) = _
    rw [List.drop_take, List.drop_drop]
  have hlength : (bytes.take (s.header.size.toNat - offset)).length =
      s.header.size.toNat - offset := by
    rw [List.length_take, List.length_drop]
    omega
  have hfront := @List.takeWhile_prefix _ (bytes.take (s.header.size.toNat - offset)) (· ≠ 0)
  have hend := getElem?_length_takeWhile (bytes.take (s.header.size.toNat - offset))
  rw [← hrun, ← run] at hfront hend
  have hle := hfront.length_le
  rw [hlength] at hle
  refine ⟨range_le, by omega, ?_, fun hnul => ?_, ?_⟩
  · exact (List.prefix_iff_eq_take.1 (hfront.trans (List.take_prefix _ _))).symm
  · have hzero := Utf8.zero_mem_encode hnul
    rw [run, hrun] at hzero
    exact absurd (List.mem_takeWhile_imp hzero) (by decide)
  -- A run that ends before the section does ends at a NUL.
  · rcases Nat.lt_or_ge (Utf8.encode text).length (s.header.size.toNat - offset) with hlt | hge
    · rw [List.getElem?_take_of_lt hlt, List.getElem?_drop] at hend
      rcases hend with hnone | hzero
      · rw [List.getElem?_eq_none_iff, hsize] at hnone
        omega
      · exact .inr hzero
    · exact .inl (by omega)

/-! ## What is read -/

/-- A section that holds strings holds all of its range. -/
theorem Section.view_of_strings {s : Section} {image : Image} {c : Class} {table : StringTable}
    (hs : s.contents = s.header.contents image c) (hc : s.contents = .ok (.strings table)) :
    s.header.offset.toNat + s.header.size.toNat ≤ image.length ∧
      table.view = image.full.window s.header.offset.toNat s.header.size.toNat := by
  have hview : s.view? = some table.view := by
    rw [view?, hc]
    rfl
  exact View.eq_window_of_subview ((view?_eq_some_iff hs _).1 hview).2

theorem SectionForm.ofType_eq_strings_iff {type : UInt32} :
    ofType type = .strings ↔ type = SectionType.stringTable := by
  unfold ofType SectionType.null SectionType.noBits SectionType.stringTable
    SectionType.symbolTable SectionType.dynamicSymbols
  grind

theorem Section.string_of_strings {s : Section} {image : Image} {c : Class} {table : StringTable}
    (hs : s.contents = s.header.contents image c) (hc : s.contents = .ok (.strings table))
    (offset : Nat) :
    table.string offset =
      if s.header.size.toNat ≤ offset then .error (.outOfBounds offset 1 s.header.size.toNat)
      else
        match Utf8.decode? (s.runAt image offset) with
        | some text => .ok text
        | none => .error (.invalidString (s.header.offset.toNat + offset)) := by
  obtain ⟨hle, hview⟩ := view_of_strings hs hc
  have hlength : table.view.length = s.header.size.toNat := by
    rw [hview, View.length_window hle]
  have hoffset : table.view.offset = s.header.offset.toNat := by
    rw [hview]
    exact Nat.zero_add _
  rw [StringTable.string_eq, hlength, hoffset, hview, View.toList_window, Image.toList_full]
  rfl

namespace SectionTable

variable {t : SectionTable} {image : Image} {header : FileHeader} {c : Class} {index offset : Nat}
  {s : Section}

/-- An index outside the table is the first thing that is looked at. -/
theorem string_of_missing (h : t.size ≤ index) :
    t.string index offset = .error (.indexOutOfRange "section" index t.size) := by
  have hnone : t.sections[index]? = none := Array.getElem?_eq_none h
  unfold string stringTable section?
  rw [hnone]
  rfl

theorem string_eq (hs : t.sections[index]? = some s) :
    t.string index offset = s.contents >>= fun
      | .strings table => table.string offset
      | _ => .error (.notAStringTable index) := by
  unfold string stringTable section?
  rw [hs]
  show (s.contents >>= _) >>= _ = _
  rcases s.contents with e | contents
  · rfl
  · cases contents <;> rfl

theorem contents_of_parse (h : parse image header = .ok t) :
    ∀ s ∈ t.sections, s.contents = s.header.contents image header.elfClass := by
  obtain rfl := eq_of_parse h
  intro s hs
  obtain ⟨i, hi, rfl⟩ := Array.mem_iff_getElem.1 hs
  rw [FileHeader.getElem_sectionTable]
  rfl

/-- The sections of a decoded table know their own index. -/
theorem getElem?_index_of_parse (h : parse image header = .ok t)
    (hs : s ∈ t.sections) : t.sections[s.index]? = some s := by
  obtain rfl := eq_of_parse h
  obtain ⟨i, hi, rfl⟩ := Array.mem_iff_getElem.1 hs
  have hindex : ((header.sectionTable image).sections[i]).index = i := by
    rw [FileHeader.getElem_sectionTable]
    rfl
  rw [hindex]
  exact Array.getElem?_eq_getElem hi

variable (hc : ∀ s ∈ t.sections, s.contents = s.header.contents image c)
include hc

theorem resolves_string (index offset : Nat) :
    t.Resolves image index offset (t.string index offset) := by
  rcases hs : t.sections[index]? with _ | s
  · have hle : t.size ≤ index := Array.getElem?_eq_none_iff.1 hs
    rw [string_of_missing hle]
    exact .missing hle
  rw [string_eq hs]
  rcases hcontents : s.contents with e | contents
  · exact .broken hs hcontents
  cases contents with
  | strings table =>
    show t.Resolves image index offset (table.string offset)
    rw [Section.string_of_strings (hc s (Array.mem_of_getElem? hs)) hcontents]
    by_cases hle : s.header.size.toNat ≤ offset
    · rw [if_pos hle]
      exact .outside hs hcontents hle
    rw [if_neg hle]
    rcases hd : Utf8.decode? (s.runAt image offset) with _ | text
    · exact .foreign hs hcontents (Nat.not_le.1 hle) (Utf8.decode?_eq_none_iff.1 hd)
    · exact .text hs hcontents (Nat.not_le.1 hle) (Utf8.decode?_eq_some_iff.1 hd)
  | absent | symbols | notes | raw => exact .other hs hcontents nofun

/-- There is one outcome only. -/
theorem Resolves.string_eq {r : Except Error String} (h : t.Resolves image index offset r) :
    t.string index offset = r := by
  cases h with
  | missing outside => exact string_of_missing outside
  | broken hs failed =>
    rw [SectionTable.string_eq hs, failed]
    rfl
  | @other s hs contents decoded other =>
    rw [SectionTable.string_eq hs, decoded]
    cases contents with
    | strings => exact absurd rfl other
    | absent | symbols | notes | raw => rfl
  | @outside s hs table decoded outside =>
    rw [SectionTable.string_eq hs, decoded]
    exact (Section.string_of_strings (hc s (Array.mem_of_getElem? hs)) decoded offset).trans
      (if_pos outside)
  | @foreign s hs table decoded inside foreign =>
    rw [SectionTable.string_eq hs, decoded]
    show table.string offset = _
    rw [Section.string_of_strings (hc s (Array.mem_of_getElem? hs)) decoded,
      if_neg (Nat.not_le.2 inside), Utf8.decode?_eq_none_iff.2 foreign]
  | @text s hs table decoded inside text run =>
    rw [SectionTable.string_eq hs, decoded]
    show table.string offset = _
    rw [Section.string_of_strings (hc s (Array.mem_of_getElem? hs)) decoded,
      if_neg (Nat.not_le.2 inside), Utf8.decode?_eq_some_iff.2 run]

theorem string_eq_iff_resolves (r : Except Error String) :
    t.string index offset = r ↔ t.Resolves image index offset r :=
  ⟨fun h => h ▸ resolves_string hc index offset, fun h => h.string_eq hc⟩

theorem exists_holdsText {text : String} (h : t.string index offset = .ok text) :
    ∃ s, t.sections[index]? = some s ∧ s.header.type = SectionType.stringTable ∧
      s.HoldsText image offset text := by
  cases (string_eq_iff_resolves hc _).1 h with
  | @text s hs table decoded inside _ run =>
    have hs' := hc s (Array.mem_of_getElem? hs)
    have hform := SectionHeader.form_of_contents (hs'.symm.trans decoded)
    exact ⟨s, hs, SectionForm.ofType_eq_strings_iff.1 hform.symm,
      Section.holdsText (Section.view_of_strings hs' decoded).1 inside run⟩

end SectionTable

/-- A name comes to what its section, its offset and the bytes there decide, in this order. A file
without names of sections has empty ones, and so has a symbol without a name; a symbol table is no
string table for its own symbols either. -/
theorem names_resolve {image : Image} {header : FileHeader} {t : SectionTable}
    (h : SectionTable.parse image header = .ok t) :
    (∀ index offset r, t.string index offset = r ↔ t.Resolves image index offset r) ∧
    (∀ index offset s, t.sections[index]? = some s →
      (s.header.type = SectionType.null ∨ s.header.type = SectionType.noBits) →
        t.string index offset = .error (.notAStringTable index)) ∧
    (∀ index offset text, t.string index offset = .ok text →
      ∃ s, t.sections[index]? = some s ∧ s.header.type = SectionType.stringTable ∧
        s.HoldsText image offset text) ∧
    (∀ s r, t.sectionName s = r ↔ if t.nameIndex = 0 then r = .ok ""
      else t.Resolves image t.nameIndex s.header.name.toNat r) ∧
    (∀ (s : Symbol) r, s.name t = r ↔ if s.nameOffset = 0 then r = .ok ""
      else t.Resolves image s.link.toNat s.nameOffset.toNat r) ∧
    ∀ holder table s, (holder, table) ∈ t.symbolTables → s ∈ table.symbols →
      s.link = holder.header.link ∧ (s.nameOffset ≠ 0 → s.link.toNat = holder.index →
        s.name t = .error (.notAStringTable holder.index)) := by
  have hc := SectionTable.contents_of_parse h
  have hiff : ∀ index offset r, t.string index offset = r ↔ t.Resolves image index offset r :=
    fun _ _ => SectionTable.string_eq_iff_resolves hc
  refine ⟨hiff, fun index offset s hs ht => ?_, fun _ _ _ => SectionTable.exists_holdsText hc,
    fun s r => ?_, fun s r => ?_, fun holder table s hm hs => ?_⟩
  · have habsent := Section.contents_of_absent (hc s (Array.mem_of_getElem? hs)) ht
    exact (hiff _ _ _).2 (.other hs habsent (by rintro ⟨⟩))
  · unfold SectionTable.sectionName
    split
    · exact eq_comm
    · exact hiff _ _ r
  · unfold Symbol.name
    split
    · exact eq_comm
    · exact hiff _ _ r
  · obtain ⟨hmem, hcontents⟩ := SectionTable.of_mem_symbolTables hm
    refine ⟨?_, fun hname hlink => ?_⟩
    · obtain ⟨view, rfl⟩ :=
        SectionHeader.symbols_of_contents ((hc holder hmem).symm.trans hcontents)
      exact SymbolTable.link_ofView s hs
    · rw [Symbol.name, if_neg hname, hlink]
      exact (hiff _ _ _).2
        (.other (SectionTable.getElem?_index_of_parse h hmem) hcontents
          (by rintro ⟨⟩))

/-- The bytes of `ab`, a byte that is no text, and `c` with no NUL behind it, in one string table;
then the headers of that section, of none, and of one that leaves the file. -/
def mixedNames : Image :=
  let first : SectionHeader :=
    { name := 0, type := 0, flags := 0, address := 0, offset := 0, size := 0, link := 0, info := 0
      alignment := 0, entrySize := 0 }
  let bytes := [0x2d, 0x61, 0x62, 0, 0xff, 0, 0x63] ++ first.encode .little .elf32 ++
    { first with name := 5, type := 3, offset := 1, size := 6 : SectionHeader }.encode .little
      .elf32 ++
    { first with type := 3, offset := 0xfffffff0, size := 16 : SectionHeader }.encode .little .elf32
  { bytes := ⟨bytes.toArray⟩ }

/-- The header that describes the three sections of `mixedNames`. -/
def mixedHeader : FileHeader :=
  { assortedHeader with sectionOffset := 7, programOffset := 0, programCount := 0, nameIndex := 1 }

theorem names_resolve_mixedNames :
    ∃ t, SectionTable.parse mixedNames mixedHeader = .ok t ∧
      t.string 3 0 = .error (.indexOutOfRange "section" 3 3) ∧
      t.string 2 0 = .error (.outOfBounds 0xfffffff0 16 127) ∧
      t.string 0 0 = .error (.notAStringTable 0) ∧
      t.string 1 6 = .error (.outOfBounds 6 1 6) ∧
      t.string 1 3 = .error (.invalidString 4) ∧
      t.string 1 1 = .ok "b" ∧
      t.sectionName (mixedHeader.sectionAt mixedNames 1) = .ok "c" := by
  have ht := (@SectionTable.parse_eq mixedHeader mixedNames (by decide +kernel)).trans
    (Guard.protect_eq_ok_iff.2 ⟨by decide +kernel, rfl⟩)
  obtain ⟨hiff, habsent, -, hname, -⟩ := names_resolve ht
  let t := mixedHeader.sectionTable mixedNames
  let named := mixedHeader.sectionAt mixedNames 1
  have h0 : t.sections[0]? = some (mixedHeader.sectionAt mixedNames 0) := rfl
  have h1 : t.sections[1]? = some named := rfl
  have h2 : t.sections[2]? = some (mixedHeader.sectionAt mixedNames 2) := rfl
  have hstrings : named.contents = .ok (.strings ⟨mixedNames.full.window 1 6⟩) := by decide +kernel
  have hfailed : (mixedHeader.sectionAt mixedNames 2).contents =
      .error (.outOfBounds 0xfffffff0 16 127) := by decide +kernel
  have hoffset : named.header.offset.toNat = 1 := by decide +kernel
  have hsize : named.header.size.toNat = 6 := by decide +kernel
  have hforeign : Utf8.decode? (named.runAt mixedNames 3) = none := by decide +kernel
  refine ⟨t, ht, (hiff 3 0 _).2 (.missing (Nat.le_refl 3)), (hiff 2 0 _).2 (.broken h2 hfailed),
    habsent 0 0 _ h0 (.inl (by decide +kernel)), ?_, ?_, ?_, ?_⟩
  · rw [hiff, ← hsize]
    exact .outside h1 hstrings (Nat.le_refl _)
  · rw [hiff, show (4 : Nat) = named.header.offset.toNat + 3 by rw [hoffset]]
    refine .foreign h1 hstrings (by rw [hsize]; decide) fun text he => ?_
    rw [← he, Utf8.decode?_encode] at hforeign
    cases hforeign
  · exact (hiff 1 1 _).2 (.text h1 hstrings (by rw [hsize]; decide) (by decide +kernel))
  · refine (hname _ _).2 ?_
    rw [if_neg (by decide +kernel), show named.header.name.toNat = 5 by decide +kernel]
    exact .text h1 hstrings (by rw [hsize]; decide) (by decide +kernel)

end ElfFormat
