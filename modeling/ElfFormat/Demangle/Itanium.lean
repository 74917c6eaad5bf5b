import ElfFormat.Text.Counted
import ElfFormat.Text.Decimal

/-!
# C++ names of the Itanium scheme

Such a name is `_Z`, the name of an entity and the types of its parameters. The name is one
identifier, or several between `N` and `E`, of which the last may be a constructor or a destructor.
The types read here are the builtin ones and pointers, references and constants of them, up to a
limited depth.
-/

namespace ElfFormat

namespace Demangle

namespace Itanium

/-- The type of a parameter, as far as it is spelled: a builtin under pointers, references and
constness. -/
inductive ParameterType where
  | builtin (name : String)
  | pointer (target : ParameterType)
  | reference (target : ParameterType)
  | constant (target : ParameterType)
deriving DecidableEq, Repr

/-- The builtin type that a letter stands for. -/
def builtin? : Char → Option String
  | 'v' => some "void"
  | 'b' => some "bool"
  | 'c' => some "char"
  | 'a' => some "signed char"
  | 'h' => some "unsigned char"
  | 's' => some "short"
  | 't' => some "unsigned short"
  | 'l' => some "long"
  | 'm' => some "unsigned long"
  | 'i' => some "int"
  | 'j' => some "unsigned int"
  | 'x' => some "long long"
  | 'y' => some "unsigned long long"
  | 'f' => some "float"
  | 'd' => some "double"
  | _ => none

namespace ParameterType

/-- A type is written from the inside out. A reference to a reference is one reference. -/
def render : ParameterType → String
  | builtin name => name
  | pointer target => target.render ++ "*"
  | reference (reference target) => (reference target).render
  | reference target => target.render ++ "&"
  | constant target => target.render ++ " const"

/-- How many modifiers a type may have. -/
def maxDepth : Nat := 89

/-- How many modifiers a type may have up to its last pointer or reference. -/
def maxIndirectDepth : Nat := 85

/-- The types that a row of letters stands for, all of it. A letter that modifies a type stands in
front of it; `outer` builds the `depth` modifiers read so far. -/
def readAll? (outer : ParameterType → ParameterType) (depth : Nat) :
    List Char → Option (List ParameterType)
  | [] => if depth = 0 then some [] else none
  | 'P' :: rest =>
    if depth < maxIndirectDepth then readAll? (fun t => outer (pointer t)) (depth + 1) rest
    else none
  | 'R' :: rest =>
    if depth < maxIndirectDepth then readAll? (fun t => outer (reference t)) (depth + 1) rest
    else none
  | 'K' :: rest =>
    if depth < maxDepth then readAll? (fun t => outer (constant t)) (depth + 1) rest
    else none
  | c :: rest => do
    let name ← builtin? c
    let types ← readAll? id 0 rest
    return outer (builtin name) :: types

end ParameterType

/-- What the name of an entity can end in besides an identifier. -/
inductive Special where
  | constructor
  | destructor
deriving DecidableEq, Repr

/-- The name of what is declared, before its parameters. -/
structure EntityName where
  /-- The identifiers, outermost first. -/
  path : List String
  special : Option Special
  /-- Whether it is a member function that leaves its object alone. -/
  isConstant : Bool
deriving DecidableEq, Repr

/-- What may stand in an identifier; compilers put dots and dollars there. -/
def isIdentifierChar (c : Char) : Bool :=
  c.isAlphanum || c == '_' || c == '.' || c == '$'

/-- An identifier: its length, not zero and without leading zeros, and its characters. -/
def identifier? (cs : List Char) : Option (String × List Char) := do
  let (n, rest) ← Decimal.read? cs
  let (name, rest) ← Counted.take? n rest
  if cs.head? ≠ some '0' ∧ name.all isIdentifierChar then return (String.ofList name, rest)
  else none

theorem length_of_identifier? {cs rest : List Char} {s : String}
    (h : identifier? cs = some (s, rest)) : rest.length < cs.length := by
  simp only [identifier?, Option.bind_eq_bind, Option.bind_eq_some_iff] at h
  obtain ⟨⟨n, behind⟩, hr, ⟨name, rest'⟩, ht, h⟩ := h
  split at h
  · cases h
    exact Nat.lt_of_le_of_lt (Counted.length_of_take? ht) (Decimal.length_of_read? hr)
  · cases h

/-- Identifiers, one behind the other, and the text behind them. -/
def identifiers (cs : List Char) : List String × List Char :=
  match _h : identifier? cs with
  | none => ([], cs)
  | some (name, rest) =>
    let (names, rest') := identifiers rest
    (name :: names, rest')
termination_by cs.length
decreasing_by exact length_of_identifier? _h

/-- What may close a name between `N` and `E`, and the text behind it. -/
def ending? : List Char → Option (Option Special × List Char)
  | 'E' :: rest => some (none, rest)
  | 'C' :: kind :: 'E' :: rest =>
    if kind = '1' ∨ kind = '2' then some (some .constructor, rest) else none
  | 'D' :: kind :: 'E' :: rest =>
    if kind = '0' ∨ kind = '1' ∨ kind = '2' then some (some .destructor, rest) else none
  | _ => none

/-- A name between `N` and `E`, read from behind the `N`. It has at least one identifier. -/
def nested? (isConstant : Bool) (cs : List Char) : Option (EntityName × List Char) := do
  let (path, rest) := identifiers cs
  let (special, rest) ← ending? rest
  if path = [] then none else return ({ path, special, isConstant }, rest)

/-- The name of an entity, and the text behind it. -/
def entity? (cs : List Char) : Option (EntityName × List Char) :=
  match cs with
  | 'N' :: 'K' :: rest => nested? true rest
  | 'N' :: rest => nested? false rest
  | cs => do
    let (name, rest) ← identifier? cs
    return ({ path := [name], special := none, isConstant := false }, rest)

namespace EntityName

/-- Compilers give this identifier to a namespace without a name. -/
def isAnonymous (name : String) : Bool :=
  match name.toList.drop "_GLOBAL_".length with
  | c :: 'N' :: _ => name.startsWith "_GLOBAL_" && (c == '_' || c == '.' || c == '$')
  | _ => false

/-- An identifier as it is shown. The namespaces without a name have a mark in its place. -/
def renderIdentifier (name : String) : String :=
  if isAnonymous name then "(anonymous namespace)" else name

/-- A constructor is called like what it constructs, a destructor with a tilde in front. -/
def render (e : EntityName) : String :=
  let path := e.path.map renderIdentifier
  let last := path.getLast?.getD ""
  "::".intercalate <| path ++ match e.special with
    | none => []
    | some .constructor => [last]
    | some .destructor => ["~" ++ last]

end EntityName

/-- Parameters between parentheses. A lone `void` says that there are none. -/
def renderParameters : List ParameterType → String
  | [.builtin "void"] => "()"
  | types => "(" ++ ", ".intercalate (types.map (·.render)) ++ ")"

/-- What follows the mark that opens a name of this scheme. -/
def body? (cs : List Char) : Option (List Char) :=
  match cs with
  | '_' :: 'Z' :: rest => some rest
  | '_' :: '_' :: 'Z' :: rest => some rest
  | _ => none

/-- Whether a name opens like one of this scheme. -/
def isMarked (name : String) : Bool :=
  (body? name.toList).isSome

/-- The name as it is shown. An entity without parameters is no function. -/
def demangle? (name : String) : Option String := do
  let body ← body? name.toList
  let (entity, rest) ← entity? body
  let types ← ParameterType.readAll? id 0 rest
  let parameters := if types = [] then "" else renderParameters types
  let constant := if entity.isConstant then " const" else ""
  return entity.render ++ parameters ++ constant

end Itanium

end Demangle

end ElfFormat
