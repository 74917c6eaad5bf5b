/-!
# JSON values

A value as it is written: numbers keep their spelling and members their order, also where a name
comes twice. A string literal may escape half of a surrogate pair; such a literal is well formed but
stands for no text.
-/

namespace ElfFormat

namespace Json

/-- A JSON value, whose numbers and strings are kept as far as options need them. -/
inductive Value where
  | null
  | bool (b : Bool)
  /-- A number in its own spelling. -/
  | number (spelling : List Char)
  /-- A string literal and the text that it stands for, if any. -/
  | string (text : Option String)
  | array (elements : List Value)
  | object (members : List (Option String × Value))

/-- What a text is made of, between blanks. -/
inductive Token where
  | openArray
  | closeArray
  | openObject
  | closeObject
  | colon
  | comma
  /-- A value that has no parts. -/
  | scalar (v : Value)

/-- A container that is being read, with what it holds so far, the latest first. -/
inductive Frame where
  | array (done : List Value)
  /-- The value of the member called `name` is next. -/
  | object (done : List (Option String × Value)) (name : Option String)

/-- What has just been read, and so what may follow. -/
inductive State where
  /-- A value has to follow. -/
  | value
  | opened
  | openedObject
  /-- A comma between members, after these, the latest first. -/
  | member (done : List (Option String × Value))
  /-- The name of a member, after these, the latest first. -/
  | named (done : List (Option String × Value)) (name : Option String)
  | behind (v : Value)

/-- The state after the first token of a value. -/
def State.start? : Token → Option State
  | .scalar v => some (.behind v)
  | .openArray => some .opened
  | .openObject => some .openedObject
  | _ => none

/-- One token: the state after it and the containers that are open then, innermost first. -/
def step : State → List Frame → Token → Option (State × List Frame)
  | .value, stack, t => (State.start? t).map (·, stack)
  | .opened, stack, .closeArray => some (.behind (.array []), stack)
  | .opened, stack, t => (State.start? t).map (·, .array [] :: stack)
  | .openedObject, stack, .closeObject => some (.behind (.object []), stack)
  | .openedObject, stack, .scalar (.string name) => some (.named [] name, stack)
  | .member done, stack, .scalar (.string name) => some (.named done name, stack)
  | .named done name, stack, .colon => some (.value, .object done name :: stack)
  | .behind v, .array done :: stack, .comma => some (.value, .array (v :: done) :: stack)
  | .behind v, .array done :: stack, .closeArray =>
    some (.behind (.array (v :: done).reverse), stack)
  | .behind v, .object done name :: stack, .comma => some (.member ((name, v) :: done), stack)
  | .behind v, .object done name :: stack, .closeObject =>
    some (.behind (.object ((name, v) :: done).reverse), stack)
  | _, _, _ => none

/-- The value that a row of tokens spells, all of it. -/
def Value.ofTokens? (tokens : List Token) : Option Value :=
  match tokens.foldlM (fun (state, stack) t => step state stack t) (State.value, []) with
  | some (.behind v, []) => some v
  | _ => none

end Json

end ElfFormat
