import ElfFormat.Json.Token
import ElfFormat.Text.Encoding

/-!
# The grammar of JSON

`Json.Spells` says which texts spell a value, in the rules of the grammar and without reading
anything. Every such text is read as that value (`Json.Value.parse?_of_spells`), by one induction
over the grammar (`Json.Spells.reads`): what a phrase is cut into depends on nothing behind it,
except that a number must not go on, and its tokens bring the reader from one state to another
whatever is open around it.
-/

namespace ElfFormat

namespace Json

/-! ## The rules -/

/-- Blanks alone. -/
def Blanks (cs : List Char) : Prop :=
  ∀ c ∈ cs, c ∈ [' ', '\t', '\n', '\r']

instance (cs : List Char) : Decidable (Blanks cs) :=
  List.decidableBAll _ cs

/-- At least one digit. -/
def Digits (cs : List Char) : Prop :=
  cs ≠ [] ∧ ∀ c ∈ cs, c.isDigit = true

/-- The part of a number in front of the point. -/
inductive Whole : List Char → Prop where
  | zero : Whole ['0']
  | digits {cs : List Char} (digits : Digits cs) (lead : cs.head? ≠ some '0') : Whole cs

/-- The point and the digits behind it, or nothing. -/
inductive Fraction : List Char → Prop where
  | none : Fraction []
  | digits {cs : List Char} (digits : Digits cs) : Fraction ('.' :: cs)

/-- The exponent with its digits, or nothing. -/
inductive Exponent : List Char → Prop where
  | none : Exponent []
  | plain {e : Char} {cs : List Char} (letter : e = 'e' ∨ e = 'E') (digits : Digits cs) :
    Exponent (e :: cs)
  | signed {e s : Char} {cs : List Char} (letter : e = 'e' ∨ e = 'E') (sign : s = '+' ∨ s = '-')
    (digits : Digits cs) : Exponent (e :: s :: cs)

/-- A number without a sign. -/
inductive Unsigned : List Char → Prop where
  | parts {w f e : List Char} (whole : Whole w) (fraction : Fraction f) (exponent : Exponent e) :
    Unsigned (w ++ (f ++ e))

/-- A number with or without a sign. -/
inductive Number : List Char → Prop where
  | unsigned {cs : List Char} (unsigned : Unsigned cs) : Number cs
  | negative {cs : List Char} (unsigned : Unsigned cs) : Number ('-' :: cs)

/-- The letters behind a backslash, with the characters that they stand for. -/
def escapes : List (Char × Char) :=
  [('"', '"'), ('\\', '\\'), ('/', '/'), ('b', '\x08'), ('f', '\x0c'), ('n', '\n'), ('r', '\r'),
    ('t', '\t')]

/-- The digit has this value, in either case. -/
def HexDigit (c : Char) (n : Nat) : Prop :=
  "0123456789abcdef".toList[n]? = some c ∨ "0123456789ABCDEF".toList[n]? = some c

/-- The number of a character or an escape. -/
inductive CodeUnit : Nat → List Char → Prop where
  | plain {c : Char} (visible : 0x20 ≤ c.toNat) (noQuote : c ≠ '"') (noEscape : c ≠ '\\') :
    CodeUnit c.toNat [c]
  | escape {e c : Char} (mem : (e, c) ∈ escapes) : CodeUnit c.toNat ['\\', e]
  | hex {a b c d : Char} {w x y z : Nat} (first : HexDigit a w) (second : HexDigit b x)
    (third : HexDigit c y) (fourth : HexDigit d z) :
    CodeUnit (w * 0x1000 + x * 0x100 + y * 0x10 + z) ['\\', 'u', a, b, c, d]

/-- The code units one behind the other, each as it may be spelled. -/
inductive CodeUnits : List Nat → List Char → Prop where
  | nil : CodeUnits [] []
  | cons {n : Nat} {ns : List Nat} {front cs : List Char} (first : CodeUnit n front)
    (rest : CodeUnits ns cs) : CodeUnits (n :: ns) (front ++ cs)

/-- The surrogates of a character past the first `2 ^ 16`. -/
def leading (c : Char) : Nat :=
  0xD800 + (c.toNat - 0x10000) / 0x400

/-- The second of the two code units of a character that takes two. -/
def trailing (c : Char) : Nat :=
  0xDC00 + (c.toNat - 0x10000) % 0x400

/-- The numbers are those of the characters, or pairs of surrogates for them. -/
inductive Joins : List Nat → List Char → Prop where
  | nil : Joins [] []
  | char {c : Char} {ns : List Nat} {cs : List Char} (rest : Joins ns cs) :
    Joins (c.toNat :: ns) (c :: cs)
  | pair {c : Char} {ns : List Nat} {cs : List Char} (large : 0x10000 ≤ c.toNat)
    (rest : Joins ns cs) : Joins (leading c :: trailing c :: ns) (c :: cs)

/-- A string literal and the text that it stands for, if it stands for one. -/
inductive Literal : Option String → List Char → Prop where
  | text {ns : List Nat} {body : List Char} {text : String} (units : CodeUnits ns body)
    (joins : Joins ns text.toList) : Literal (some text) ('"' :: (body ++ ['"']))
  | foreign {ns : List Nat} {body : List Char} (units : CodeUnits ns body)
    (unpaired : ∀ cs, ¬Joins ns cs) : Literal none ('"' :: (body ++ ['"']))

/-- What the grammar has rules for. An element is a value with blanks around it. -/
inductive Phrase where
  | value (v : Value)
  | element (v : Value)
  | elements (vs : List Value)
  | member (name : Option String) (v : Value)
  | members (ms : List (Option String × Value))

/-- The characters spell the phrase. -/
inductive Spells : Phrase → List Char → Prop where
  | null : Spells (.value .null) ['n', 'u', 'l', 'l']
  | true : Spells (.value (.bool true)) ['t', 'r', 'u', 'e']
  | false : Spells (.value (.bool false)) ['f', 'a', 'l', 's', 'e']
  | number {cs : List Char} (number : Number cs) : Spells (.value (.number cs)) cs
  | string {text : Option String} {cs : List Char} (literal : Literal text cs) :
    Spells (.value (.string text)) cs
  | emptyArray {b : List Char} (blanks : Blanks b) :
    Spells (.value (.array [])) ('[' :: (b ++ [']']))
  | array {vs : List Value} {cs : List Char} (elements : Spells (.elements vs) cs) :
    Spells (.value (.array vs)) ('[' :: (cs ++ [']']))
  | emptyObject {b : List Char} (blanks : Blanks b) :
    Spells (.value (.object [])) ('\x7b' :: (b ++ ['\x7d']))
  | object {ms : List (Option String × Value)} {cs : List Char}
    (members : Spells (.members ms) cs) :
    Spells (.value (.object ms)) ('\x7b' :: (cs ++ ['\x7d']))
  | element {v : Value} {a cs b : List Char} (before : Blanks a) (value : Spells (.value v) cs)
    (behind : Blanks b) : Spells (.element v) (a ++ (cs ++ b))
  | lastElement {v : Value} {cs : List Char} (element : Spells (.element v) cs) :
    Spells (.elements [v]) cs
  | moreElements {v : Value} {vs : List Value} {cs rest : List Char}
    (element : Spells (.element v) cs) (more : Spells (.elements vs) rest) :
    Spells (.elements (v :: vs)) (cs ++ ',' :: rest)
  | member {name : Option String} {v : Value} {a k b cs : List Char} (before : Blanks a)
    (literal : Literal name k) (behind : Blanks b) (element : Spells (.element v) cs) :
    Spells (.member name v) (a ++ (k ++ (b ++ ':' :: cs)))
  | lastMember {name : Option String} {v : Value} {cs : List Char}
    (member : Spells (.member name v) cs) : Spells (.members [(name, v)]) cs
  | moreMembers {name : Option String} {v : Value} {ms : List (Option String × Value)}
    {cs rest : List Char} (member : Spells (.member name v) cs)
    (more : Spells (.members ms) rest) : Spells (.members ((name, v) :: ms)) (cs ++ ',' :: rest)

/-! ## Texts without blanks and escapes -/

/-- Nothing in the text has to be escaped. -/
def Plain (text : String) : Prop :=
  ∀ c ∈ text.toList, 0x20 ≤ c.toNat ∧ c ≠ '"' ∧ c ≠ '\\'

instance (text : String) : Decidable (Plain text) :=
  List.decidableBAll _ text.toList

theorem Literal.plain {text : String} (h : Plain text) :
    Literal (some text) ('"' :: (text.toList ++ ['"'])) := by
  have hunits : ∀ cs : List Char, (∀ c ∈ cs, 0x20 ≤ c.toNat ∧ c ≠ '"' ∧ c ≠ '\\') →
      CodeUnits (cs.map Char.toNat) cs ∧ Joins (cs.map Char.toNat) cs := by
    intro cs hcs
    induction cs with
    | nil => exact ⟨.nil, .nil⟩
    | cons c cs ih =>
      obtain ⟨⟨visible, noQuote, noEscape⟩, hcs⟩ := List.forall_mem_cons.1 hcs
      obtain ⟨units, joins⟩ := ih hcs
      exact ⟨.cons (.plain visible noQuote noEscape) units, .char joins⟩
  obtain ⟨units, joins⟩ := hunits text.toList h
  exact .text units joins

theorem Blanks.nil : Blanks [] :=
  List.forall_mem_nil _

theorem Spells.bare {v : Value} {cs : List Char} (h : Spells (.value v) cs) :
    Spells (.element v) cs := by
  have := Spells.element .nil h .nil
  rwa [List.nil_append, List.append_nil] at this

theorem Spells.plainMember {name : String} {v : Value} {cs : List Char} (hn : Plain name)
    (h : Spells (.value v) cs) :
    Spells (.member (some name) v) ('"' :: (name.toList ++ '"' :: ':' :: cs)) := by
  have := Spells.member .nil (.plain hn) .nil h.bare
  rwa [List.nil_append, List.nil_append, List.cons_append, List.append_assoc] at this

/-! ## Numbers -/

/-- Nothing that would be one more digit. -/
def NoDigit (rest : List Char) : Prop :=
  ∀ c ∈ rest.head?, c.isDigit = false

/-- Nothing that a number would go on with. -/
def EndsNumber (rest : List Char) : Prop :=
  ∀ c ∈ rest.head?, c.isDigit = false ∧ c ≠ '.' ∧ c ≠ 'e' ∧ c ≠ 'E'

section Numbers

variable {cs f e rest : List Char}

theorem EndsNumber.noDigit (h : EndsNumber rest) : NoDigit rest :=
  fun c hc => (h c hc).1

theorem digits?_append (h : Digits cs) (hr : NoDigit rest) :
    digits? (cs ++ rest) = some (cs, rest) := by
  obtain ⟨hne, hall⟩ := h
  have hnone : rest.takeWhile Char.isDigit = [] := by
    cases rest with
    | nil => rfl
    | cons c rest => rw [List.takeWhile_cons, hr c rfl]; rfl
  have hrest : rest.dropWhile Char.isDigit = rest := by
    cases rest with
    | nil => rfl
    | cons c rest => rw [List.dropWhile_cons, hr c rfl]; rfl
  unfold digits?
  rw [List.takeWhile_append_of_pos hall, List.dropWhile_append_of_pos hall, hnone, hrest,
    List.append_nil]
  cases cs with
  | nil => exact absurd rfl hne
  | cons c cs => rfl

theorem wholePart?_append (h : Whole cs) (hr : NoDigit rest) :
    wholePart? (cs ++ rest) = some (cs, rest) := by
  cases h with
  | zero => rfl
  | digits digits lead =>
    rw [← digits?_append digits hr]
    unfold wholePart?
    split
    · next hc =>
      cases cs with
      | nil => exact absurd rfl digits.1
      | cons c cs => exact absurd (congrArg some (List.cons.inj hc).1) lead
    · rfl

theorem fraction?_append (h : Fraction f) (hr : NoDigit rest) (hp : ∀ c ∈ rest.head?, c ≠ '.') :
    fraction? (f ++ rest) = some (f, rest) := by
  cases h with
  | none =>
    unfold fraction?
    split
    · next hc => exact absurd rfl (hp '.' (by rw [← List.nil_append rest, hc]; rfl))
    · rfl
  | digits digits =>
    show (digits? (_ ++ _)).bind _ = _
    rw [digits?_append digits hr]
    rfl

theorem exponent?_append (h : Exponent e) (hr : EndsNumber rest) :
    exponent? (e ++ rest) = some (e, rest) := by
  cases h with
  | none =>
    cases rest with
    | nil => rfl
    | cons c rest =>
      obtain ⟨-, -, he, hE⟩ := hr c rfl
      exact if_neg (not_or.2 ⟨he, hE⟩)
  | @plain e cs letter digits =>
    obtain ⟨d, ds, rfl⟩ := List.exists_cons_of_ne_nil digits.1
    have hd := digits.2 d (.head _)
    have hs : ¬(d = '+' ∨ d = '-') := by
      rintro (rfl | rfl) <;> exact absurd hd (by decide)
    have hread := digits?_append digits hr.noDigit
    unfold exponent?
    rw [List.cons_append, List.cons_append] at *
    simp only [if_pos letter, if_neg hs, hread]
    rfl
  | signed letter sign digits =>
    have hread := digits?_append digits hr.noDigit
    unfold exponent?
    rw [List.cons_append, List.cons_append]
    simp only [if_pos letter, if_pos sign, hread]
    rfl

theorem Exponent.head_append (h : Exponent e) (hr : EndsNumber rest) :
    ∀ c ∈ (e ++ rest).head?, c.isDigit = false ∧ c ≠ '.' := by
  cases h with
  | none => exact fun c hc => ⟨(hr c hc).1, (hr c hc).2.1⟩
  | plain letter | signed letter =>
    rintro c ⟨⟩
    rcases letter with rfl | rfl <;> decide

theorem Fraction.noDigit_append (h : Fraction f) (hr : NoDigit rest) : NoDigit (f ++ rest) := by
  cases h with
  | none => exact hr
  | digits => exact fun c hc => by cases hc; rfl

/-- A number is cut off behind its last character, if what follows can end one. -/
theorem unsigned?_append (h : Unsigned cs) (hr : EndsNumber rest) :
    unsigned? (cs ++ rest) = some (cs, rest) := by
  obtain ⟨whole, fraction, exponent⟩ := h
  have hhead := exponent.head_append hr
  have hdigit := fraction.noDigit_append fun c hc => (hhead c hc).1
  unfold unsigned?
  rw [List.append_assoc, List.append_assoc]
  simp only [wholePart?_append whole hdigit, Option.bind_eq_bind, Option.bind_some,
    fraction?_append fraction (fun c hc => (hhead c hc).1) (fun c hc => (hhead c hc).2),
    exponent?_append exponent hr]
  simp

theorem Unsigned.head_isDigit (h : Unsigned cs) : ∃ d ds, cs = d :: ds ∧ d.isDigit = true := by
  obtain ⟨whole, -, -⟩ := h
  cases whole with
  | zero => exact ⟨'0', _, rfl, rfl⟩
  | digits digits =>
    obtain ⟨d, ds, rfl⟩ := List.exists_cons_of_ne_nil digits.1
    exact ⟨d, _, rfl, digits.2 d (.head _)⟩

end Numbers

/-! ## String literals -/

section Strings

variable {ns : List Nat} {cs body rest : List Char}

theorem hexValue?_of_hexDigit {c : Char} {n : Nat} (h : HexDigit c n) : hexValue? c = some n := by
  have hsmall : ∀ n < 16, "0123456789abcdef".toList[n]?.bind hexValue? = some n := by decide
  have hlarge : ∀ n < 16, "0123456789ABCDEF".toList[n]?.bind hexValue? = some n := by decide
  rcases h with h | h
  · have hc := hsmall n (List.getElem?_eq_some_iff.1 h).1
    rwa [h] at hc
  · have hc := hlarge n (List.getElem?_eq_some_iff.1 h).1
    rwa [h] at hc

/-- A code unit is read in each way in which it may be spelled. -/
theorem CodeUnit.units?_append {n : Nat} {front : List Char} (h : CodeUnit n front) :
    units? (front ++ rest) = (units? rest).map fun (ns, rest) => (n :: ns, rest) := by
  cases h with
  | @plain c visible noQuote noEscape =>
    have hvisible : ¬(c.toNat < 0x20 ∨ c = '\\') := not_or.2 ⟨Nat.not_lt.2 visible, noEscape⟩
    rw [List.singleton_append, units?.eq_4 c rest noQuote (fun _ _ _ _ _ h => absurd h noEscape)
      (fun _ _ h => absurd h noEscape), if_neg hvisible]
    cases units? rest <;> rfl
  | @escape e c mem =>
    have hletter : ∀ p ∈ escapes, escaped? p.1 = some p.2 ∧ p.1 ≠ 'u' := by decide
    obtain ⟨hescaped, hu⟩ := hletter _ mem
    rw [List.cons_append, List.singleton_append,
      units?.eq_3 e rest (fun _ _ _ _ _ h => absurd h hu), hescaped]
    cases units? rest <;> rfl
  | hex first second third fourth =>
    show units? ('\\' :: 'u' :: _ :: _ :: _ :: _ :: rest) = _
    rw [units?.eq_2, hexValue?_of_hexDigit first, hexValue?_of_hexDigit second,
      hexValue?_of_hexDigit third, hexValue?_of_hexDigit fourth]
    cases units? rest <;> rfl

theorem units?_append (h : CodeUnits ns body) :
    units? (body ++ '"' :: rest) = some (ns, rest) := by
  induction h with
  | nil => rfl
  | cons first _ ih => rw [List.append_assoc, first.units?_append, ih]; rfl

theorem isValidChar_iff {n : Nat} : n.isValidChar ↔ ∃ c : Char, c.toNat = n :=
  ⟨fun h => ⟨.ofNat n, Utf8.toNat_ofNat h⟩, fun ⟨c, h⟩ => h ▸ c.valid⟩

theorem joins_of_joinSurrogates? (h : joinSurrogates? ns = some cs) : Joins ns cs := by
  fun_induction joinSurrogates? ns generalizing cs with
  | case1 =>
    obtain rfl := Option.some.inj h
    exact .nil
  | case2 n valid =>
    obtain rfl := Option.some.inj h
    obtain ⟨c, rfl⟩ := isValidChar_iff.1 valid
    rw [Char.ofNat_toNat]
    exact .char .nil
  | case3 => cases h
  | case4 n m rest valid ih =>
    obtain ⟨cs, hcs, rfl⟩ := Option.map_eq_some_iff.1 h
    obtain ⟨c, rfl⟩ := isValidChar_iff.1 valid
    rw [Char.ofNat_toNat]
    exact .char (ih hcs)
  | case5 n m rest invalid pair ih =>
    obtain ⟨cs, hcs, rfl⟩ := Option.map_eq_some_iff.1 h
    have hn : 0xD800 ≤ n := by
      refine Nat.le_of_not_lt fun hlt => invalid (.inl hlt)
    have hjoined : Nat.isValidChar (0x10000 + (n - 0xD800) * 0x400 + (m - 0xDC00)) :=
      .inr (by omega)
    obtain ⟨c, hc⟩ := isValidChar_iff.1 hjoined
    rw [← hc, Char.ofNat_toNat]
    have hlead : n = leading c := by
      unfold leading
      omega
    have htrail : m = trailing c := by
      unfold trailing
      omega
    rw [hlead, htrail]
    exact .pair (by omega) (ih hcs)
  | case6 => cases h

theorem joinSurrogates?_of_joins (h : Joins ns cs) : joinSurrogates? ns = some cs := by
  induction h with
  | nil => rfl
  | @char c ns cs _ ih =>
    have hvalid : c.toNat.isValidChar := c.valid
    cases ns with
    | nil =>
      obtain rfl := Option.some.inj ih
      rw [joinSurrogates?, if_pos hvalid, Char.ofNat_toNat]
    | cons m ns => rw [joinSurrogates?, if_pos hvalid, ih, Char.ofNat_toNat]; rfl
  | @pair c ns cs large _ ih =>
    have hmax : c.toNat < 0x110000 := by
      rcases c.valid with h | ⟨-, h⟩
      · exact Nat.lt_trans h (by decide)
      · exact h
    have hlead : leading c = 0xD800 + (c.toNat - 0x10000) / 0x400 := rfl
    have htrail : trailing c = 0xDC00 + (c.toNat - 0x10000) % 0x400 := rfl
    have hinvalid : ¬(leading c).isValidChar := by
      unfold Nat.isValidChar
      omega
    have hjoined : 0x10000 + (leading c - 0xD800) * 0x400 + (trailing c - 0xDC00) = c.toNat := by
      omega
    rw [joinSurrogates?, if_neg hinvalid, if_pos (by omega), ih, hjoined, Char.ofNat_toNat]
    rfl

theorem joinSurrogates?_eq_some_iff : joinSurrogates? ns = some cs ↔ Joins ns cs :=
  ⟨joins_of_joinSurrogates?, joinSurrogates?_of_joins⟩

/-- The text of a literal is the one that its units join to. -/
theorem Literal.token? {text : Option String} (h : Literal text cs) :
    ∃ tail, cs = '"' :: tail ∧
      ∀ rest, token? '"' (tail ++ rest) = some (.scalar (.string text), rest) := by
  have hread : ∀ {ns body}, CodeUnits ns body → ∀ rest, Json.token? '"' ((body ++ ['"']) ++ rest) =
      some (.scalar (.string ((joinSurrogates? ns).map String.ofList)), rest) := by
    intro ns body units rest
    rw [List.append_assoc]
    show (units? (body ++ '"' :: rest)).bind _ = _
    rw [units?_append units]
    rfl
  cases h with
  | @text ns body text units joins =>
    refine ⟨_, rfl, fun rest => ?_⟩
    rw [hread units, joinSurrogates?_eq_some_iff.2 joins, Option.map_some, String.ofList_toList]
  | @foreign ns body units unpaired =>
    refine ⟨_, rfl, fun rest => ?_⟩
    have hnone : joinSurrogates? ns = none :=
      Option.eq_none_iff_forall_ne_some.2 fun cs h => unpaired cs (joinSurrogates?_eq_some_iff.1 h)
    rw [hread units, hnone]
    rfl

end Strings

/-! ## Tokens of a text -/

/-- In front of `rest`, the text is cut into these tokens. -/
def CutsInto (cs : List Char) (ts : List Token) (rest : List Char) : Prop :=
  scan? (cs ++ rest) = (scan? rest).map (ts ++ ·)

section Scanning

variable {cs b rest : List Char} {ts us : List Token}

theorem isBlank_iff {c : Char} : isBlank c = true ↔ c ∈ [' ', '\t', '\n', '\r'] := by
  simp [isBlank, or_assoc]

theorem scan?_nil : scan? [] = some [] := by
  rw [scan?]

theorem scan?_of_isBlank {c : Char} (h : isBlank c = true) : scan? (c :: cs) = scan? cs := by
  rw [scan?, if_pos h]

theorem scan?_of_token {c : Char} {t : Token} (hb : isBlank c = false)
    (h : token? c cs = some (t, rest)) : scan? (c :: cs) = (scan? rest).map (t :: ·) := by
  rw [scan?, if_neg (by rw [hb]; exact Bool.false_ne_true)]
  split
  · next h' => rw [h] at h'; cases h'
  · next h' =>
    rw [h] at h'
    obtain ⟨rfl, rfl⟩ := Prod.mk.inj (Option.some.inj h')
    rfl

/-- Texts that are cut into tokens are cut up one behind the other. -/
theorem CutsInto.append (h : CutsInto cs ts (b ++ rest)) (h' : CutsInto b us rest) :
    CutsInto (cs ++ b) (ts ++ us) rest := by
  unfold CutsInto at *
  rw [List.append_assoc, h, h', Option.map_map]
  exact congrArg (Option.map · _) (funext fun l => (List.append_assoc ts us l).symm)

theorem Blanks.cutsInto (h : Blanks b) : CutsInto b [] rest := by
  unfold CutsInto
  induction b with
  | nil => exact (congrFun Option.map_id (scan? rest)).symm
  | cons c b ih =>
    rw [List.cons_append, scan?_of_isBlank (isBlank_iff.2 (h c (.head _)))]
    exact ih fun d hd => h d (.tail _ hd)

theorem cutsInto_of_token {c : Char} {t : Token} (hb : isBlank c = false)
    (h : token? c (cs ++ rest) = some (t, rest)) : CutsInto (c :: cs) [t] rest :=
  scan?_of_token hb h

/-- What stands between two tokens of one character each. -/
theorem CutsInto.enclosed {first last : Char} {t u : Token}
    (hf : ∀ rest, CutsInto [first] [t] rest) (hl : ∀ rest, CutsInto [last] [u] rest)
    (h : CutsInto cs ts (last :: rest)) :
    CutsInto (first :: (cs ++ [last])) (t :: (ts ++ [u])) rest :=
  (hf _).append (h.append (hl rest))

theorem cutsInto_comma : CutsInto [','] [.comma] rest :=
  cutsInto_of_token (by decide) rfl

theorem cutsInto_colon : CutsInto [':'] [.colon] rest :=
  cutsInto_of_token (by decide) rfl

theorem CutsInto.array (h : CutsInto cs ts (']' :: rest)) :
    CutsInto ('[' :: (cs ++ [']'])) (.openArray :: (ts ++ [.closeArray])) rest :=
  h.enclosed (fun _ => cutsInto_of_token (by decide) rfl) fun _ => cutsInto_of_token (by decide) rfl

theorem CutsInto.object (h : CutsInto cs ts ('\x7d' :: rest)) :
    CutsInto ('\x7b' :: (cs ++ ['\x7d'])) (.openObject :: (ts ++ [.closeObject])) rest :=
  h.enclosed (fun _ => cutsInto_of_token (by decide) rfl) fun _ => cutsInto_of_token (by decide) rfl

/-- A text of anything but blanks has a token, if it can be cut at all. -/
theorem scan?_ne_nil (h : ¬Blanks cs) : scan? cs ≠ some [] := by
  induction cs with
  | nil => exact absurd (List.forall_mem_nil _) h
  | cons c cs ih =>
    by_cases hb : isBlank c = true
    · rw [scan?_of_isBlank hb]
      exact ih fun hcs => h (List.forall_mem_cons.2 ⟨isBlank_iff.1 hb, hcs⟩)
    · rw [scan?, if_neg hb]
      split <;> simp

theorem token?_of_isDigit {d : Char} (h : d.isDigit = true) :
    token? d cs = (unsigned? (d :: cs)).map fun (spelling, rest) =>
      (.scalar (.number spelling), rest) := by
  unfold token?
  split
  all_goals try exact absurd h (by decide)
  cases unsigned? (d :: cs) <;> rfl

theorem isBlank_of_isDigit {d : Char} (h : d.isDigit = true) : isBlank d = false := by
  rw [← Bool.not_eq_true]
  intro hb
  simp only [isBlank_iff, List.mem_cons, List.not_mem_nil, or_false] at hb
  rcases hb with rfl | rfl | rfl | rfl <;> exact absurd h (by decide)

theorem Number.cutsInto (h : Number cs) (hr : EndsNumber rest) :
    CutsInto cs [.scalar (.number cs)] rest := by
  cases h with
  | unsigned unsigned =>
    obtain ⟨d, ds, rfl, hd⟩ := unsigned.head_isDigit
    refine cutsInto_of_token (isBlank_of_isDigit hd) ?_
    rw [token?_of_isDigit hd, ← List.cons_append, unsigned?_append unsigned hr]
    rfl
  | @negative cs unsigned =>
    refine cutsInto_of_token (by decide) ?_
    show (unsigned? (cs ++ rest)).bind _ = _
    rw [unsigned?_append unsigned hr]
    rfl

theorem Literal.cutsInto {text : Option String} (h : Literal text cs) (rest : List Char) :
    CutsInto cs [.scalar (.string text)] rest := by
  obtain ⟨tail, rfl, htoken⟩ := h.token?
  exact cutsInto_of_token (by decide) (htoken rest)

end Scanning

/-! ## Runs of the reader -/

/-- All states that a row of tokens leads through. -/
def run (s : State × List Frame) (ts : List Token) : Option (State × List Frame) :=
  ts.foldlM (fun (state, stack) t => step state stack t) s

section Runs

variable {state state' : State} {stack stack' : List Frame} {ts us : List Token} {t : Token}
  {v : Value} {s : State × List Frame}

theorem run_cons : run (state, stack) (t :: ts) = (step state stack t).bind (run · ts) :=
  rfl

theorem run_append (h : run (state, stack) ts = some s) :
    run (state, stack) (ts ++ us) = run s us := by
  unfold run at *
  rw [List.foldlM_append, h]
  rfl

/-- Behind the opening of a container its first part is read as any other is. -/
theorem run_of_step (h : ∀ t s, step state stack t = some s → step state' stack' t = some s)
    (hstate : ∀ v, state ≠ .behind v) {outer : List Frame}
    (hr : run (state, stack) ts = some (.behind v, outer)) :
    run (state', stack') ts = some (.behind v, outer) := by
  cases ts with
  | nil => exact absurd (Prod.mk.inj (Option.some.inj hr)).1 (hstate v)
  | cons t ts =>
    rw [run_cons] at hr ⊢
    obtain ⟨s, hs, hr⟩ := Option.bind_eq_some_iff.1 hr
    rw [h t s hs]
    exact hr

/-- The first element of an array is met as any value is. -/
theorem step_opened (h : step .value (.array [] :: stack) t = some s) :
    step .opened stack t = some s := by
  cases t with
  | closeArray => cases h
  | _ => exact h

theorem step_openedObject (h : step (.member []) stack t = some s) :
    step .openedObject stack t = some s := by
  cases t with
  | scalar v =>
    cases v with
    | string => exact h
    | _ => cases h
  | _ => cases h

/-- Behind a whole value nothing follows. -/
theorem run_behind_nil : run (.behind v, []) (t :: ts) = none := by
  rw [run_cons]
  cases t <;> rfl

end Runs

/-! ## What is read -/

/-- What the tokens of a phrase do to the reader. -/
def Phrase.ReadBy (ts : List Token) : Phrase → Prop
  | .value v | .element v =>
    ∀ stack, run (.value, stack) ts = some (.behind v, stack)
  | .elements vs =>
    ∀ done stack, run (.value, .array done :: stack) (ts ++ [.closeArray]) =
      some (.behind (.array (done.reverse ++ vs)), stack)
  | .member name v =>
    ∀ done stack, run (.member done, stack) ts = some (.behind v, .object done name :: stack)
  | .members ms =>
    ∀ done stack, run (.member done, stack) (ts ++ [.closeObject]) =
      some (.behind (.object (done.reverse ++ ms)), stack)

/-- The phrase is over in front of `rest`. What closes itself always is. -/
def Phrase.Ends (rest : List Char) : Phrase → Prop
  | .value (.array _) | .value (.object _) | .element (.array _) | .element (.object _) => True
  | _ => EndsNumber rest

theorem endsNumber_cons {c : Char} {rest : List Char}
    (h : c.isDigit = false ∧ c ≠ '.' ∧ c ≠ 'e' ∧ c ≠ 'E') : EndsNumber (c :: rest) := by
  rintro d ⟨⟩
  exact h

/-- Blanks end a number, and where there are none it is over anyway. -/
theorem Phrase.Ends.blanks {v : Value} {b rest : List Char} (h : (Phrase.element v).Ends rest)
    (hb : Blanks b) : (Phrase.value v).Ends (b ++ rest) := by
  have hends : EndsNumber rest → EndsNumber (b ++ rest) := by
    cases b with
    | nil => exact id
    | cons c b =>
      have hblank := hb c (.head _)
      simp only [List.mem_cons, List.not_mem_nil, or_false] at hblank
      refine fun _ => endsNumber_cons ?_
      rcases hblank with rfl | rfl | rfl | rfl <;> decide
  cases v with
  | array | object => trivial
  | null | bool | number | string => exact hends h

theorem Phrase.ends_of_endsNumber (p : Phrase) {rest : List Char} (h : EndsNumber rest) :
    p.Ends rest := by
  unfold Phrase.Ends
  split
  all_goals trivial

/-- By induction over the grammar: a phrase has tokens that do to the reader what the phrase says,
and its text is cut into them in front of anything that does not go on with it. -/
theorem Spells.reads {p : Phrase} {cs : List Char} (h : Spells p cs) :
    ∃ ts, p.ReadBy ts ∧ ∀ rest, p.Ends rest → CutsInto cs ts rest := by
  induction h with
  | null => exact ⟨_, fun _ => rfl, fun _ _ => cutsInto_of_token (by decide) rfl⟩
  | true => exact ⟨_, fun _ => rfl, fun _ _ => cutsInto_of_token (by decide) rfl⟩
  | false => exact ⟨_, fun _ => rfl, fun _ _ => cutsInto_of_token (by decide) rfl⟩
  | number number => exact ⟨_, fun _ => rfl, fun _ hr => number.cutsInto hr⟩
  | string literal => exact ⟨_, fun _ => rfl, fun rest _ => literal.cutsInto rest⟩
  | emptyArray blanks => exact ⟨_, fun _ => rfl, fun _ _ => blanks.cutsInto.array⟩
  | array elements ih =>
    obtain ⟨ts, hrun, hcut⟩ := ih
    refine ⟨_, fun stack => ?_, fun rest _ => (hcut _ (endsNumber_cons (by decide))).array⟩
    exact run_of_step (fun _ _ => step_opened) nofun (hrun [] stack)
  | emptyObject blanks => exact ⟨_, fun _ => rfl, fun _ _ => blanks.cutsInto.object⟩
  | object members ih =>
    obtain ⟨ts, hrun, hcut⟩ := ih
    refine ⟨_, fun stack => ?_, fun rest _ => (hcut _ (endsNumber_cons (by decide))).object⟩
    exact run_of_step (fun _ _ => step_openedObject) nofun (hrun [] stack)
  | element before value behind ih =>
    obtain ⟨ts, hrun, hcut⟩ := ih
    refine ⟨[] ++ (ts ++ []), fun stack => ?_, fun rest hr => ?_⟩
    · rw [List.nil_append, List.append_nil]
      exact hrun stack
    · exact before.cutsInto.append ((hcut _ (hr.blanks behind)).append behind.cutsInto)
  | @lastElement v cs element ih =>
    obtain ⟨ts, hrun, hcut⟩ := ih
    refine ⟨ts, fun done stack => ?_, fun rest hr => hcut rest (Phrase.ends_of_endsNumber _ hr)⟩
    rw [run_append (hrun _), ← List.reverse_cons]
    rfl
  | @moreElements v vs cs rest element more ih ih' =>
    obtain ⟨ts, hrun, hcut⟩ := ih
    obtain ⟨us, hrun', hcut'⟩ := ih'
    refine ⟨ts ++ .comma :: us, fun done stack => ?_, fun rest hr => ?_⟩
    · have hdone : done.reverse ++ v :: vs = (v :: done).reverse ++ vs := by simp
      rw [List.append_assoc, run_append (hrun _), hdone]
      exact hrun' (v :: done) stack
    · refine (hcut _ ?_).append (cutsInto_comma.append (hcut' rest hr))
      exact Phrase.ends_of_endsNumber _ (endsNumber_cons (by decide))
  | @member name v a k b cs before literal behind element ih =>
    obtain ⟨ts, hrun, hcut⟩ := ih
    refine ⟨[] ++ ([.scalar (.string name)] ++ ([] ++ ([.colon] ++ ts))), fun done stack => ?_,
      fun rest hr => ?_⟩
    · exact hrun _
    · have hvalue := cutsInto_colon.append (hcut rest (Phrase.ends_of_endsNumber _ hr))
      exact before.cutsInto.append ((literal.cutsInto _).append (behind.cutsInto.append hvalue))
  | lastMember member ih =>
    obtain ⟨ts, hrun, hcut⟩ := ih
    refine ⟨ts, fun done stack => ?_, hcut⟩
    rw [run_append (hrun _ _), ← List.reverse_cons]
    rfl
  | @moreMembers name v ms cs rest member more ih ih' =>
    obtain ⟨ts, hrun, hcut⟩ := ih
    obtain ⟨us, hrun', hcut'⟩ := ih'
    refine ⟨ts ++ .comma :: us, fun done stack => ?_, fun rest hr => ?_⟩
    · have hdone : done.reverse ++ (name, v) :: ms = ((name, v) :: done).reverse ++ ms := by simp
      rw [List.append_assoc, run_append (hrun _ _), hdone]
      exact hrun' ((name, v) :: done) stack
    · exact (hcut _ (endsNumber_cons (by decide))).append (cutsInto_comma.append (hcut' rest hr))

namespace Value

variable {v : Value} {text : String}

theorem ofTokens?_eq (ts : List Token) :
    ofTokens? ts = match run (.value, []) ts with
      | some (.behind v, []) => some v
      | _ => none :=
  rfl

/-- What spells a value is parsed to it. -/
theorem parse?_of_spells (h : Spells (.element v) text.toList) : parse? text = some v := by
  obtain ⟨ts, hrun, hcut⟩ := h.reads
  have hscan := hcut [] (Phrase.ends_of_endsNumber _ nofun)
  rw [CutsInto, List.append_nil, scan?_nil, Option.map_some, List.append_nil] at hscan
  have hread : run (.value, []) ts = some (.behind v, []) := hrun []
  unfold parse?
  rw [hscan, Option.bind_eq_bind, Option.bind_some, ofTokens?_eq, hread]

/-- What closes itself is not read with anything but blanks behind it. -/
theorem parse?_append (h : Spells (.element v) text.toList)
    (hv : ∀ rest, (Phrase.element v).Ends rest) {behind : String} (hb : ¬Blanks behind.toList) :
    parse? (text ++ behind) = none := by
  obtain ⟨ts, hrun, hcut⟩ := h.reads
  have hscan := hcut behind.toList (hv _)
  have hread : run (.value, []) ts = some (.behind v, []) := hrun []
  unfold parse?
  rw [String.toList_append, hscan]
  rcases hbehind : scan? behind.toList with _ | us
  · rfl
  · cases us with
    | nil => exact absurd hbehind (scan?_ne_nil hb)
    | cons u us =>
      rw [Option.map_some, Option.bind_eq_bind, Option.bind_some, ofTokens?_eq, run_append hread,
        run_behind_nil]

end Value

end Json

end ElfFormat
