import ElfFormat.Text.Hex

/-!
# Labels

A numeric tag is shown by its name in a table or, if it has none, by its value; a word of flags is
shown by its value followed by the names of the bits that are set.
-/

namespace ElfFormat

/-- Names of numeric tags. The first entry for a tag is the one that counts. -/
abbrev NameTable : Type :=
  List (Nat × String)

namespace NameTable

/-- Such as `unknown (0x2a)`. -/
def unknown (tag : Nat) : String :=
  s!"unknown ({Hex.text tag})"

/-- The name of `tag`, or its value if the table does not have it. -/
def label (table : NameTable) (tag : Nat) : String :=
  (table.lookup tag).getD (unknown tag)

end NameTable

/-- Names of single bits of a word, by their position. -/
abbrev FlagTable : Type :=
  List (Nat × String)

namespace FlagTable

/-- The names of the bits that are set, in the order of the table. -/
def namesOf (table : FlagTable) (flags : Nat) : List String :=
  (table.filter fun (position, _) => flags.testBit position).map (·.2)

end FlagTable

/-- What stands around the names of flags and between them. -/
structure FlagStyle where
  opening : String
  separator : String
  closing : String

namespace FlagStyle

/-- Such as ` ALLOC,EXEC`. -/
def listed : FlagStyle :=
  { opening := " ", separator := ",", closing := "" }

/-- Such as ` (PF_X, PF_R)`. -/
def enclosed : FlagStyle :=
  { opening := " (", separator := ", ", closing := ")" }

/-- The names as they are shown; nothing stands for no names. -/
def render (style : FlagStyle) : List String → String
  | [] => ""
  | names => style.opening ++ style.separator.intercalate names ++ style.closing

end FlagStyle

/-- The value of a word of flags, and behind it the names of the bits that are set. -/
def FlagTable.text (table : FlagTable) (style : FlagStyle) (flags : Nat) : String :=
  Hex.padded 8 flags ++ style.render (table.namesOf flags)

end ElfFormat
