import ElfFormat.Demangle.Itanium
import ElfFormat.Demangle.Rust
import ElfFormat.Section.Names

/-!
# Demangling

Object files hold names of two families: Rust names, in two schemes, and C++ names. A name is tried
as a Rust name first, because the older Rust scheme looks like the C++ one. The family of a name and
its demangled form are decided from the two demanglers alone, so `Demanglers` keeps them as
parameters; `Demanglers.standard` are the ones of this library.
-/

namespace ElfFormat

/-- The family of a mangled name. -/
inductive Flavor where
  | rust
  | itanium
  | unknown
deriving DecidableEq, Repr

/-- What the scheme is called in listings. -/
def Flavor.name : Flavor → String
  | rust => "Rust"
  | itanium => "Itanium"
  | unknown => "Unknown"

/-- A name with its demangled form. -/
structure Demangled where
  mangled : String
  text : String
  flavor : Flavor
deriving DecidableEq, Repr

/-- How names of each family are demangled; a name that is not of the family gives nothing. -/
structure Demanglers where
  rust : String → Option String
  itanium : String → Option String

namespace Demanglers

/-- The two demanglers as this library has them. -/
def standard : Demanglers where
  rust := Demangle.Rust.demangle?
  itanium := Demangle.Itanium.demangle?

/-- The family that a name seems to be of. What opens like a C++ name counts as one, whether or not
it can be demangled. -/
def flavor (d : Demanglers) (name : String) : Flavor :=
  if (d.rust name).isSome then .rust
  else if Demangle.Itanium.isMarked name then .itanium
  else .unknown

/-- Demangles a name by the first scheme that knows it. Rust goes first, since its older names are
marked as Itanium names too. -/
def demangle? (d : Demanglers) (name : String) : Option Demangled :=
  match d.rust name with
  | some text => some { mangled := name, text, flavor := .rust }
  | none =>
    if Demangle.Itanium.isMarked name then
      (d.itanium name).map fun text => { mangled := name, text, flavor := .itanium }
    else none

end Demanglers

/-- The demangled name of a symbol, if the symbol has a name and the name is mangled. -/
def Symbol.demangledName? (s : Symbol) (d : Demanglers) (sections : SectionTable) :
    Option String := do
  let name ← (s.name sections).toOption
  let demangled ← d.demangle? name
  return demangled.text

end ElfFormat
