import ElfFormat.Json.Value

/-!
# Cutting JSON text into tokens

Blanks may stand between tokens and mean nothing. A string literal is first read into numbers, one
for each character or escape, and then pairs of surrogates are joined; half a pair leaves the
literal without a text.
-/

namespace ElfFormat

namespace Json

/-- The blanks that may stand between tokens. -/
def isBlank (c : Char) : Bool :=
  c == ' ' || c == '\t' || c == '\n' || c == '\r'

/-- The value of a hexadecimal digit, in either case. -/
def hexValue? (c : Char) : Option Nat :=
  if c.isDigit then some (c.toNat - '0'.toNat)
  else if 'a' ≤ c ∧ c ≤ 'f' then some (c.toNat - 'a'.toNat + 10)
  else if 'A' ≤ c ∧ c ≤ 'F' then some (c.toNat - 'A'.toNat + 10)
  else none

/-- The character that a letter behind a backslash stands for. -/
def escaped? : Char → Option Char
  | '"' => some '"'
  | '\\' => some '\\'
  | '/' => some '/'
  | 'b' => some '\x08'
  | 'f' => some '\x0c'
  | 'n' => some '\n'
  | 'r' => some '\r'
  | 't' => some '\t'
  | _ => none

/-- The numbers of the characters and escapes of a string literal, from behind its opening quote up
to its closing one, and the text behind that. Control characters have to be escaped. -/
def units? : List Char → Option (List Nat × List Char)
  | '"' :: rest => some ([], rest)
  | '\\' :: 'u' :: a :: b :: c :: d :: rest => do
    let n := (← hexValue? a) * 0x1000 + (← hexValue? b) * 0x100 + (← hexValue? c) * 0x10 +
      (← hexValue? d)
    let (ns, rest) ← units? rest
    return (n :: ns, rest)
  | '\\' :: e :: rest => do
    let c ← escaped? e
    let (ns, rest) ← units? rest
    return (c.toNat :: ns, rest)
  | c :: rest =>
    if c.toNat < 0x20 ∨ c = '\\' then none
    else do
      let (ns, rest) ← units? rest
      return (c.toNat :: ns, rest)
  | [] => none

/-- Joins each leading surrogate with the trailing one behind it. There is no result if one of
either is left over. -/
def joinSurrogates? : List Nat → Option (List Char)
  | [] => some []
  | [n] => if n.isValidChar then some [Char.ofNat n] else none
  | n :: m :: rest =>
    if n.isValidChar then (joinSurrogates? (m :: rest)).map (Char.ofNat n :: ·)
    else if n < 0xDC00 ∧ 0xDC00 ≤ m ∧ m < 0xE000 then
      (joinSurrogates? rest).map (Char.ofNat (0x10000 + (n - 0xD800) * 0x400 + (m - 0xDC00)) :: ·)
    else none

/-- At least one digit, and the text behind them. -/
def digits? (cs : List Char) : Option (List Char × List Char) :=
  match cs.takeWhile Char.isDigit with
  | [] => none
  | ds => some (ds, cs.dropWhile Char.isDigit)

/-- The part of a number in front of the point: no zero leads other digits. -/
def wholePart? : List Char → Option (List Char × List Char)
  | '0' :: rest => some (['0'], rest)
  | cs => digits? cs

/-- The point and the digits behind it, if there is a point. -/
def fraction? : List Char → Option (List Char × List Char)
  | '.' :: rest => do
    let (ds, rest) ← digits? rest
    return ('.' :: ds, rest)
  | cs => some ([], cs)

/-- Reads the exponent of a number. It may be missing, but a letter without digits behind it is an
error. -/
def exponent? : List Char → Option (List Char × List Char)
  | e :: rest =>
    if e = 'e' ∨ e = 'E' then
      match rest with
      | s :: rest' =>
        if s = '+' ∨ s = '-' then do
          let (ds, rest') ← digits? rest'
          return (e :: s :: ds, rest')
        else do
          let (ds, rest') ← digits? rest
          return (e :: ds, rest')
      | [] => none
    else some ([], e :: rest)
  | [] => some ([], [])

/-- The spelling of a number without a sign, and the text behind it. -/
def unsigned? (cs : List Char) : Option (List Char × List Char) := do
  let (whole, rest) ← wholePart? cs
  let (fraction, rest) ← fraction? rest
  let (exponent, rest) ← exponent? rest
  return (whole ++ fraction ++ exponent, rest)

/-- The token that starts with `c`, and the text behind it. -/
def token? (c : Char) (rest : List Char) : Option (Token × List Char) :=
  match c, rest with
  | '[', rest => some (.openArray, rest)
  | ']', rest => some (.closeArray, rest)
  | '\x7b', rest => some (.openObject, rest)
  | '\x7d', rest => some (.closeObject, rest)
  | ':', rest => some (.colon, rest)
  | ',', rest => some (.comma, rest)
  | 'n', 'u' :: 'l' :: 'l' :: rest => some (.scalar .null, rest)
  | 't', 'r' :: 'u' :: 'e' :: rest => some (.scalar (.bool true), rest)
  | 'f', 'a' :: 'l' :: 's' :: 'e' :: rest => some (.scalar (.bool false), rest)
  | '"', rest => do
    let (ns, rest) ← units? rest
    return (.scalar (.string ((joinSurrogates? ns).map String.ofList)), rest)
  | '-', rest => do
    let (spelling, rest) ← unsigned? rest
    return (.scalar (.number ('-' :: spelling)), rest)
  | c, rest => do
    let (spelling, rest) ← unsigned? (c :: rest)
    return (.scalar (.number spelling), rest)

theorem length_of_units? {cs : List Char} {ns : List Nat} {rest : List Char}
    (h : units? cs = some (ns, rest)) : rest.length < cs.length := by
  fun_induction units? cs generalizing ns rest with
  | case1 => cases h; simp
  | case2 a b c d cs ih =>
    simp only [Option.bind_eq_bind, Option.bind_eq_some_iff] at h
    obtain ⟨_, _, _, _, _, _, _, _, ⟨ns', rest'⟩, hu, h⟩ := h
    cases h
    have := ih hu
    simp only [List.length_cons]
    omega
  | case3 e cs _ ih =>
    simp only [Option.bind_eq_bind, Option.bind_eq_some_iff] at h
    obtain ⟨_, _, ⟨ns', rest'⟩, hu, h⟩ := h
    cases h
    have := ih hu
    simp only [List.length_cons]
    omega
  | case4 => cases h
  | case5 c cs _ _ _ _ ih =>
    simp only [Option.bind_eq_bind, Option.bind_eq_some_iff] at h
    obtain ⟨⟨ns', rest'⟩, hu, h⟩ := h
    cases h
    have := ih hu
    simp only [List.length_cons]
    omega
  | case6 => cases h

theorem length_of_digits? {cs ds rest : List Char} (h : digits? cs = some (ds, rest)) :
    rest.length < cs.length := by
  simp only [digits?] at h
  split at h
  · cases h
  · next hd =>
    cases h
    have hs := congrArg List.length (List.takeWhile_append_dropWhile (p := Char.isDigit) (l := cs))
    rw [List.length_append] at hs
    have : (cs.takeWhile Char.isDigit).length ≠ 0 := by simpa using hd
    omega

theorem length_of_wholePart? {cs ds rest : List Char} (h : wholePart? cs = some (ds, rest)) :
    rest.length < cs.length := by
  simp only [wholePart?] at h
  split at h
  · cases h; simp
  · exact length_of_digits? h

theorem length_of_fraction? {cs ds rest : List Char} (h : fraction? cs = some (ds, rest)) :
    rest.length ≤ cs.length := by
  simp only [fraction?] at h
  split at h
  · simp only [Option.bind_eq_bind, Option.bind_eq_some_iff] at h
    obtain ⟨⟨ds', rest'⟩, hd, h⟩ := h
    cases h
    have := length_of_digits? hd
    simp only [List.length_cons]
    omega
  · cases h; exact Nat.le_refl _

theorem length_of_exponent? {cs ds rest : List Char} (h : exponent? cs = some (ds, rest)) :
    rest.length ≤ cs.length := by
  simp only [exponent?] at h
  split at h
  · split at h
    · split at h
      · split at h <;>
        · simp only [Option.bind_eq_bind, Option.bind_eq_some_iff] at h
          obtain ⟨⟨ds', rest'⟩, hd, h⟩ := h
          cases h
          have := length_of_digits? hd
          simp only [List.length_cons] at this ⊢
          omega
      · cases h
    · cases h; exact Nat.le_refl _
  · cases h; exact Nat.le_refl _

theorem length_of_unsigned? {cs ds rest : List Char} (h : unsigned? cs = some (ds, rest)) :
    rest.length < cs.length := by
  simp only [unsigned?, Option.bind_eq_bind, Option.bind_eq_some_iff] at h
  obtain ⟨⟨_, _⟩, hw, ⟨_, _⟩, hf, ⟨_, _⟩, he, h⟩ := h
  cases h
  have := length_of_wholePart? hw
  have := length_of_fraction? hf
  have := length_of_exponent? he
  dsimp only at *
  omega

theorem length_of_token? {c : Char} {cs rest : List Char} {t : Token}
    (h : token? c cs = some (t, rest)) : rest.length ≤ cs.length := by
  simp only [token?] at h
  split at h
  all_goals try (cases h; simp <;> omega)
  · simp only [Option.bind_eq_bind, Option.bind_eq_some_iff] at h
    obtain ⟨⟨_, _⟩, hu, h⟩ := h
    cases h
    exact Nat.le_of_lt (length_of_units? hu)
  · simp only [Option.bind_eq_bind, Option.bind_eq_some_iff] at h
    obtain ⟨⟨_, _⟩, hu, h⟩ := h
    cases h
    exact Nat.le_of_lt (length_of_unsigned? hu)
  · simp only [Option.bind_eq_bind, Option.bind_eq_some_iff] at h
    obtain ⟨⟨_, _⟩, hu, h⟩ := h
    cases h
    have := length_of_unsigned? hu
    simp only [List.length_cons] at this ⊢
    omega

/-- Cuts a text into tokens, or fails at the first place where there is none. -/
def scan? (cs : List Char) : Option (List Token) :=
  match cs with
  | [] => some []
  | c :: rest =>
    if isBlank c then scan? rest
    else
      match _h : token? c rest with
      | none => none
      | some (t, rest') => (scan? rest').map (t :: ·)
termination_by cs.length
decreasing_by
  · simp
  · have := length_of_token? _h
    simp only [List.length_cons]
    omega

/-- The value that a text spells, all of it. -/
def Value.parse? (text : String) : Option Value := do
  let tokens ← scan? text.toList
  Value.ofTokens? tokens

end Json

end ElfFormat
