import ElfFormat.Proofs.FirstMatch
import ElfFormat.Proofs.NameResolution

/-!
# Looking up by name

A section is found by its name if the name can be read, whatever stands in front of it: what has
another name, or one that does not resolve, is passed over (`SectionTable.byName_eq_some_iff`).
Without a section of names every name is empty, so the empty text finds the first section; where the
index of the names leads to anything but a string table, nothing is found at all
(`SectionTable.byName_of_nameless`).

Symbols are searched in the same way, save that one without a name is never found. A symbol that the
empty text finds therefore has a name offset, and at that offset stands a NUL
(`SymbolTable.namesNul_of_indexOfName?`).
-/

namespace ElfFormat

namespace SectionTable

/-- The index of the names leads to no string table: it names no section, or one that carries
something else, or one that could not be decoded. -/
def Nameless (t : SectionTable) : Prop :=
  ∀ s, t.sections[t.nameIndex]? = some s → ∀ table, s.contents ≠ .ok (.strings table)

/-- The section stands in front of all others that have this name. -/
def FirstNamed (t : SectionTable) (name : String) (s : Section) : Prop :=
  IsFirst t.sections.toList (fun s => t.sectionName s = .ok name) s.index s

variable {t : SectionTable} {image : Image} {header : FileHeader} {name : String} {s : Section}

theorem index_of_parse (h : parse image header = .ok t) {i : Nat}
    (hs : t.sections.toList[i]? = some s) : s.index = i := by
  obtain rfl := eq_of_parse h
  rw [Array.getElem?_toList] at hs
  obtain ⟨hi, rfl⟩ := Array.getElem?_eq_some_iff.1 hs
  rw [FileHeader.getElem_sectionTable]
  rfl

theorem byName_eq_some_iff (h : parse image header = .ok t) :
    t.byName name = some s ↔ t.FirstNamed name s := by
  have hfind : t.byName name = some s ↔
      ∃ i, IsFirst t.sections.toList (fun s => t.sectionName s = .ok name) i s :=
    find?_eq_some_iff_isFirst fun _ _ => isNamed_iff
  rw [hfind]
  constructor
  · rintro ⟨i, hfirst⟩
    obtain rfl := index_of_parse h hfirst.get_eq
    exact hfirst
  · exact fun hfirst => ⟨_, hfirst⟩

theorem byName_eq_none_iff (t : SectionTable) (name : String) :
    t.byName name = none ↔ ∀ s ∈ t.sections, t.sectionName s ≠ .ok name := by
  simp only [← Array.mem_toList_iff]
  exact find?_eq_none_iff_forall fun _ _ => isNamed_iff

/-- Nothing hides a section whose name is read, except one in front of it that has the name too. -/
theorem exists_byName (h : parse image header = .ok t) (hs : s ∈ t.sections)
    (hname : t.sectionName s = .ok name) :
    ∃ found, t.byName name = some found ∧ found.index ≤ s.index := by
  rcases hfind : t.byName name with _ | found
  · exact absurd hname ((byName_eq_none_iff t name).1 hfind s hs)
  · have hget := getElem?_index_of_parse h hs
    rw [← Array.getElem?_toList] at hget
    exact ⟨found, rfl, ((byName_eq_some_iff h).1 hfind).le hget hname⟩

/-- Where no section holds names, they are all empty. -/
theorem byName_of_nameIndex (h0 : t.nameIndex = 0) (name : String) :
    t.byName name = if name = "" then t.sections[0]? else none := by
  have hnamed : ∀ s, t.isNamed s name = (name == "") := fun s => if_pos h0
  unfold byName
  simp only [hnamed, beq_eq_decide]
  by_cases hempty : name = ""
  · rw [if_pos hempty, decide_eq_true hempty, ← Array.getElem?_toList]
    cases t.sections.toList <;> rfl
  · rw [if_neg hempty, decide_eq_false hempty]
    exact List.find?_eq_none.2 fun _ _ => Bool.false_ne_true

/-- Where no name can be resolved, none is found. -/
theorem byName_of_nameless (h0 : t.nameIndex ≠ 0) (hn : t.Nameless) (name : String) :
    t.byName name = none := by
  refine (byName_eq_none_iff t name).2 fun s _ hs => ?_
  rw [sectionName, if_neg h0] at hs
  rcases hget : t.sections[t.nameIndex]? with _ | holder
  · rw [string_of_missing (Array.getElem?_eq_none_iff.1 hget)] at hs
    cases hs
  · rw [string_eq hget] at hs
    obtain ⟨contents, hcontents, hs⟩ := bind_eq_ok_iff.1 hs
    cases contents with
    | strings table => exact hn holder hget table hcontents
    | absent | symbols | notes | raw => cases hs

end SectionTable

/-! ## Symbols -/

/-- A symbol of this name that has a name at all. -/
def Symbol.HasName (s : Symbol) (sections : SectionTable) (name : String) : Prop :=
  s.nameOffset ≠ 0 ∧ s.name sections = .ok name

/-- The name offset of the symbol is the place of a NUL in the string table that it is linked to. -/
def Symbol.NamesNul (s : Symbol) (sections : SectionTable) (image : Image) : Prop :=
  ∃ holder, sections.sections[s.link.toNat]? = some holder ∧
    holder.header.type = SectionType.stringTable ∧
    s.nameOffset.toNat < holder.header.size.toNat ∧
    image.bytes.data.toList[holder.header.offset.toNat + s.nameOffset.toNat]? = some 0

/-- A text that is read as empty is cut off at once, and it is a NUL that cuts it off: a text starts
inside its section. -/
theorem SectionTable.nul_of_string_empty {t : SectionTable} {image : Image} {c : Class}
    {index offset : Nat}
    (hc : ∀ s ∈ t.sections, s.contents = s.header.contents image c)
    (h : t.string index offset = .ok "") :
    ∃ s, t.sections[index]? = some s ∧ s.header.type = SectionType.stringTable ∧
      offset < s.header.size.toNat ∧
      image.bytes.data.toList[s.header.offset.toNat + offset]? = some 0 := by
  cases (string_eq_iff_resolves hc _).1 h with
  | @text s hs table decoded inside _ run =>
    have hs' := hc s (Array.mem_of_getElem? hs)
    have hform := SectionHeader.form_of_contents (hs'.symm.trans decoded)
    have hholds := Section.holdsText (Section.view_of_strings hs' decoded).1 inside run
    have hlength : (Utf8.encode "").length = 0 := rfl
    refine ⟨s, hs, SectionForm.ofType_eq_strings_iff.1 hform.symm, inside, ?_⟩
    rcases hholds.ends with hend | hnul
    · omega
    · exact hnul

namespace SymbolTable

variable {symbols : SymbolTable} {t : SectionTable} {name : String}

/-- A symbol without a name is not found by the empty text. -/
theorem hasName_iff {s : Symbol} :
    (s.nameOffset != 0 && s.isNamed t name) = true ↔ s.HasName t name := by
  rw [Bool.and_eq_true, bne_iff_ne, Symbol.isNamed_iff]
  rfl

theorem indexOfName?_eq_some_iff {k : Nat} :
    symbols.indexOfName? t name = some k ↔
      ∃ s, IsFirst symbols.symbols.toList (·.HasName t name) k s :=
  findIdx?_eq_some_iff_isFirst fun _ _ => hasName_iff

theorem indexOfName?_eq_none_iff :
    symbols.indexOfName? t name = none ↔ ∀ s ∈ symbols.symbols, ¬s.HasName t name := by
  simp only [← Array.mem_toList_iff]
  unfold indexOfName?
  rw [List.findIdx?_eq_none_iff]
  exact forall₂_congr fun s _ => by rw [← hasName_iff, Bool.not_eq_true]

/-- What the empty text finds is no symbol without a name. -/
theorem namesNul_of_indexOfName? {image : Image} {c : Class}
    (hc : ∀ s ∈ t.sections, s.contents = s.header.contents image c) {k : Nat}
    (h : symbols.indexOfName? t "" = some k) :
    ∃ s, symbols.symbols[k]? = some s ∧ s.nameOffset ≠ 0 ∧ s.NamesNul t image := by
  obtain ⟨s, hfirst⟩ := indexOfName?_eq_some_iff.1 h
  obtain ⟨hne, hname⟩ := hfirst.holds
  rw [Symbol.name, if_neg hne] at hname
  have hget := hfirst.get_eq
  rw [Array.getElem?_toList] at hget
  exact ⟨s, hget, hne, SectionTable.nul_of_string_empty hc hname⟩

end SymbolTable

/-- In a table that decodes, a name finds the first section that it is read for, and fails only if
it is read for none. Without names of sections the empty name finds the first one, and a name index
that leads nowhere finds none. Among symbols a name finds the first that has one and has this one,
so the empty name finds a symbol that points at a NUL or none. -/
theorem name_lookups_take_first {image : Image} {header : FileHeader} {t : SectionTable}
    (h : SectionTable.parse image header = .ok t) (name : String) :
    (∀ s, t.byName name = some s ↔ t.FirstNamed name s) ∧
    (t.byName name = none ↔ ∀ s ∈ t.sections, t.sectionName s ≠ .ok name) ∧
    (∀ s ∈ t.sections, t.sectionName s = .ok name →
      ∃ found, t.byName name = some found ∧ found.index ≤ s.index) ∧
    (t.nameIndex = 0 → t.byName name = if name = "" then t.sections[0]? else none) ∧
    (t.nameIndex ≠ 0 → t.Nameless → t.byName name = none) ∧
    ∀ symbols : SymbolTable,
      (∀ k, symbols.indexOfName? t name = some k ↔
        ∃ s, IsFirst symbols.symbols.toList (·.HasName t name) k s) ∧
      (symbols.indexOfName? t name = none ↔ ∀ s ∈ symbols.symbols, ¬s.HasName t name) ∧
      ∀ k, symbols.indexOfName? t "" = some k →
        ∃ s, symbols.symbols[k]? = some s ∧ s.nameOffset ≠ 0 ∧ s.NamesNul t image := by
  refine ⟨fun _ => SectionTable.byName_eq_some_iff h, SectionTable.byName_eq_none_iff t name,
    fun _ => SectionTable.exists_byName h, fun h0 => SectionTable.byName_of_nameIndex h0 name,
    fun h0 hn => SectionTable.byName_of_nameless h0 hn name, fun symbols => ⟨?_, ?_, ?_⟩⟩
  · exact fun _ => SymbolTable.indexOfName?_eq_some_iff
  · exact SymbolTable.indexOfName?_eq_none_iff
  · exact fun _ => SymbolTable.namesNul_of_indexOfName? (SectionTable.contents_of_parse h)

/-- A string table with the text `a`, an empty one behind it and a byte that is no text; then the
headers of a section whose name is outside it, of the table itself, which is named by that byte, and
of two sections with the name `a`. -/
def repeatedNames : Image :=
  let first : SectionHeader :=
    { name := 9, type := 0, flags := 0, address := 0, offset := 0, size := 0, link := 0, info := 0
      alignment := 0, entrySize := 0 }
  let named : SectionHeader := { first with name := 0, type := 1 }
  let bytes := [0x61, 0, 0xff] ++ first.encode .little .elf32 ++
    { first with name := 2, type := 3, size := 3 : SectionHeader }.encode .little .elf32 ++
    named.encode .little .elf32 ++ named.encode .little .elf32
  { bytes := ⟨bytes.toArray⟩ }

/-- The header that describes the four sections of `repeatedNames`. -/
def repeatedHeader : FileHeader :=
  { mixedHeader with sectionOffset := 3, sectionCount := 4 }

/-- The sections without a readable name do not hide the first `a`, and the symbol without a name is
not the one that the empty text finds. -/
theorem name_lookups_take_first_repeatedNames :
    let second := repeatedHeader.sectionAt repeatedNames 2
    let unnamed : Symbol := ⟨0, 0, 0, 0, 0, 0, 1, .elf32⟩
    let symbols : SymbolTable :=
      ⟨repeatedNames.full, 1, #[unnamed, { unnamed with nameOffset := 1 }]⟩
    ∃ t, SectionTable.parse repeatedNames repeatedHeader = .ok t ∧ t.sections.size = 4 ∧
      t.byName "a" = some second ∧ second.index = 2 ∧ t.byName "b" = none ∧
      symbols.indexOfName? t "" = some 1 ∧ symbols.indexOfName? t "a" = none := by
  intro second unnamed symbols
  have ht := (@SectionTable.parse_eq repeatedHeader repeatedNames (by decide +kernel)).trans
    (Guard.protect_eq_ok_iff.2 ⟨by decide +kernel, rfl⟩)
  have hlist : (repeatedHeader.sectionTable repeatedNames).sections.toList =
      [repeatedHeader.sectionAt repeatedNames 0, repeatedHeader.sectionAt repeatedNames 1, second,
        repeatedHeader.sectionAt repeatedNames 3] := by rfl
  obtain ⟨hsome, -, -, -, -, hsymbols⟩ := name_lookups_take_first ht "a"
  obtain ⟨-, hnone, -⟩ := name_lookups_take_first ht "b"
  obtain ⟨-, hmissing, -⟩ := hsymbols symbols
  have hempty := ((name_lookups_take_first ht "").2.2.2.2.2 symbols).1 1
  refine ⟨_, ht, by rfl, (hsome second).2 ⟨by rw [hlist]; rfl, by decide +kernel, ?_⟩, rfl,
    hnone.2 ?_, hempty.2 ⟨_, ⟨rfl, ⟨by decide, by decide +kernel⟩, ?_⟩⟩, hmissing.2 ?_⟩
  · intro j hj s hs
    rw [hlist] at hs
    rcases j with _ | _ | j
    · obtain rfl := Option.some.inj hs
      decide +kernel
    · obtain rfl := Option.some.inj hs
      decide +kernel
    · exact absurd hj (by simp [second, FileHeader.sectionAt])
  · simp only [← Array.mem_toList_iff, hlist, List.forall_mem_cons]
    refine ⟨?_, ?_, ?_, ?_, nofun⟩ <;> decide +kernel
  · rintro j hj s hs ⟨hne, -⟩
    obtain rfl : j = 0 := by omega
    obtain rfl := Option.some.inj hs
    exact hne rfl
  · simp only [← Array.mem_toList_iff, symbols, List.forall_mem_cons]
    refine ⟨fun h => h.1 rfl, ?_, nofun⟩
    rintro ⟨-, hname⟩
    revert hname
    decide +kernel

end ElfFormat
