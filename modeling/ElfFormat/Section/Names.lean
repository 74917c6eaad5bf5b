import ElfFormat.Section.Table

/-!
# Names of sections and symbols

A name is an offset into a string table: the sections' names into the table that the file header
points at, a symbol's name into the table that its own table is linked to. Looking up by name gives
the first match; what has no readable name is passed over. For that no name is read further than
it takes to tell it from the one looked for, and `isNamed_iff` says that nothing else matters.
-/

namespace ElfFormat

namespace SectionTable

/-- The string table that the section at `index` holds. -/
def stringTable (t : SectionTable) (index : Nat) : Except Error StringTable := do
  let s ← t.section? index
  match ← s.contents with
  | .strings table => return table
  | _ => .error (.notAStringTable index)

/-- The text at `offset` of the string table that the section at `index` holds. -/
def string (t : SectionTable) (index offset : Nat) : Except Error String := do
  let table ← t.stringTable index
  table.string offset

/-- The name of a section. Where no section holds names, every name is empty. -/
def sectionName (t : SectionTable) (s : Section) : Except Error String :=
  if t.nameIndex = 0 then .ok "" else t.string t.nameIndex s.header.name.toNat

/-- Whether the string table that the section at `index` holds has the text `s` at `offset`. -/
def holds (t : SectionTable) (index offset : Nat) (s : String) : Bool :=
  match t.stringTable index with
  | .ok table => table.holds offset s
  | .error _ => false

/-- Whether a section has this name, without decoding the name. -/
def isNamed (t : SectionTable) (s : Section) (name : String) : Bool :=
  if t.nameIndex = 0 then name == "" else t.holds t.nameIndex s.header.name.toNat name

/-- The first section with this name. One whose name cannot be decoded has no name to compare. -/
def byName (t : SectionTable) (name : String) : Option Section :=
  t.sections.toList.find? (t.isNamed · name)

theorem holds_iff {t : SectionTable} {index offset : Nat} {s : String} :
    t.holds index offset s = true ↔ t.string index offset = .ok s := by
  simp only [holds, string]
  cases t.stringTable index with
  | error e => exact ⟨nofun, nofun⟩
  | ok table => exact StringTable.holds_iff

theorem isNamed_iff {t : SectionTable} {s : Section} {name : String} :
    t.isNamed s name = true ↔ t.sectionName s = .ok name := by
  simp only [isNamed, sectionName]
  split
  · rw [beq_iff_eq, Except.ok.injEq, eq_comm]
  · exact holds_iff

end SectionTable

/-- The name of a symbol; the offset 0 stands for no name. -/
def Symbol.name (s : Symbol) (sections : SectionTable) : Except Error String :=
  if s.nameOffset = 0 then .ok "" else sections.string s.link.toNat s.nameOffset.toNat

/-- Whether a symbol has this name, without decoding the name. -/
def Symbol.isNamed (s : Symbol) (sections : SectionTable) (name : String) : Bool :=
  if s.nameOffset = 0 then name == ""
  else sections.holds s.link.toNat s.nameOffset.toNat name

theorem Symbol.isNamed_iff {s : Symbol} {sections : SectionTable} {name : String} :
    s.isNamed sections name = true ↔ s.name sections = .ok name := by
  simp only [isNamed, Symbol.name]
  split
  · rw [beq_iff_eq, Except.ok.injEq, eq_comm]
  · exact SectionTable.holds_iff

/-- The position of the first symbol that has this name. Only symbols with a name are looked at. -/
def SymbolTable.indexOfName? (t : SymbolTable) (sections : SectionTable) (name : String) :
    Option Nat :=
  t.symbols.toList.findIdx? fun s => s.nameOffset != 0 && s.isNamed sections name

end ElfFormat
