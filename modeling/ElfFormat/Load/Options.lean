import ElfFormat.ByteOrder
import ElfFormat.Json.Token
import ElfFormat.Text.Decimal

/-!
# Load options and their JSON form

A file is loaded under a size limit, by reading it or by mapping it. In JSON the options are an
object with a member for each; a missing one takes its default, one given twice is refused, and
members of other names are passed over. The members may also be given by position, in an array. A
choice from a fixed set is written as its name.
-/

namespace ElfFormat

/-- How a file is brought into memory. -/
inductive LoadStrategy where
  | read
  | map
deriving DecidableEq, Repr

/-- How a file is loaded. -/
structure LoadOptions where
  /-- The largest file that is loaded, in bytes. -/
  maxFileSize : UInt64 := 0x40000000
  strategy : LoadStrategy := .read
deriving DecidableEq, Repr

/-- How log lines are written. -/
inductive LogFormat where
  | pretty
  | json
deriving DecidableEq, Repr

/-- A choice from a fixed set of names. -/
class Choice (α : Type) where
  names : List (String × α)
  name : α → String

instance : Choice ByteOrder where
  names := [("Little", .little), ("Big", .big)]
  name := ByteOrder.name

instance : Choice LoadStrategy where
  names := [("Read", .read), ("Map", .map)]
  name
    | .read => "Read"
    | .map => "Map"

instance : Choice LogFormat where
  names := [("pretty", .pretty), ("json", .json)]
  name
    | .pretty => "pretty"
    | .json => "json"

namespace Choice

/-- A choice is its name, or an object whose one member has that name and is null. -/
def ofJson? (α : Type) [Choice α] : Json.Value → Option α
  | .string (some name) => (Choice.names (α := α)).lookup name
  | .object [(some name, .null)] => (Choice.names (α := α)).lookup name
  | _ => none

/-- The JSON text of a choice. No name needs escapes. -/
def toJson {α : Type} [Choice α] (a : α) : String :=
  "\"" ++ name a ++ "\""

end Choice

namespace LoadOptions

/-- What holds where nothing is said. -/
def defaults : LoadOptions := {}

/-- A limit is a whole number of 64 bits in digits alone. -/
def limit? : Json.Value → Option UInt64
  | .number spelling =>
    if spelling.all Char.isDigit then (Decimal.word? spelling).map UInt64.ofNat else none
  | _ => none

/-- The values of the members with this name, in their order. -/
def membersOf (name : String) (members : List (Option String × Json.Value)) : List Json.Value :=
  members.filterMap fun (key, v) => if key = some name then some v else none

/-- What an optional member says, or the default where it is missing. It is given at most once. -/
def member? {α : Type} (default : α) (read : Json.Value → Option α) : List Json.Value → Option α
  | [] => some default
  | [v] => read v
  | _ => none

/-- The options that a JSON object states. Members with other names are passed over, and what is not
stated has its default. -/
def ofJson? : Json.Value → Option LoadOptions
  | .object members =>
    if members.any (fun (key, _) => key.isNone) then none
    else do
      let maxFileSize ← member? defaults.maxFileSize limit? (membersOf "max_file_size" members)
      let strategy ←
        member? defaults.strategy (Choice.ofJson? LoadStrategy) (membersOf "strategy" members)
      return { maxFileSize, strategy }
  | .array elements => do
    let maxFileSize ← member? defaults.maxFileSize limit? (elements.take 1)
    let strategy ← member? defaults.strategy (Choice.ofJson? LoadStrategy) (elements.drop 1)
    return { maxFileSize, strategy }
  | _ => none

/-- The JSON text of the options, without blanks. -/
def toJson (o : LoadOptions) : String :=
  let limit := o.maxFileSize.toNat
  let strategy := Choice.toJson o.strategy
  s!"\x7b\"max_file_size\":{limit},\"strategy\":{strategy}\x7d"

end LoadOptions

end ElfFormat
