import ElfFormat.Load.Options
import ElfFormat.Proofs.JsonGrammar

/-!
# Options in JSON

What a text of options is read as is settled by its members called `max_file_size` and `strategy`,
without their order (`LoadOptions.ofJson?_congr`). Either may be missing. `LoadOptions.StatesLimit`
and `LoadOptions.StatesStrategy` say what an object states, and `LoadOptions.Refuses` why it is
refused. Escapes in a name make no difference, but one that stands for no text is a reason.

The text that is written for options is one of these objects (`LoadOptions.objectText_toJson`), so
reading it back is a case of reading any object. The printed limit is a number of the grammar
because no zero leads its digits (`Json.head_toDigits`).
-/

namespace ElfFormat

open Json

/-! ## Decimal numbers -/

/-- Digits are read as the number that they stand for, up to 64 bits. -/
theorem Decimal.word?_eq_some_iff {digits : List Char} {n : Nat} :
    word? digits = some n ↔ Nat.ofDigitChars 10 digits 0 = n ∧ n < 2 ^ 64 := by
  have hvalue : Radix.value 10 (digits.map digit) = Nat.ofDigitChars 10 digits 0 := by
    rw [Radix.value, List.foldl_map, Nat.ofDigitChars_eq_foldl]
    simp only [Nat.mul_comm, digit]
  rw [word?, Radix.word?_eq_some_iff (by decide), hvalue]

namespace Json

theorem digits_toDigits (n : Nat) : Digits (Nat.toDigits 10 n) :=
  ⟨Nat.toDigits_ne_nil, fun _ => Nat.isDigit_of_mem_toDigits (by decide) (by decide)⟩

theorem unsigned_toDigits (n : Nat) : Unsigned (Nat.toDigits 10 n) := by
  have whole : Whole (Nat.toDigits 10 n) := by
    rcases Nat.eq_zero_or_pos n with rfl | hn
    · exact .zero
    · exact .digits (digits_toDigits n) (Radix.head?_toDigits (by decide) hn)
  have h := Unsigned.parts whole .none .none
  rwa [List.append_nil, List.append_nil] at h

/-! ## What an object states -/

/-- The text of an object with these members, with blanks anywhere. -/
def ObjectText (text : String) (members : List (Option String × Value)) : Prop :=
  Spells (.element (.object members)) text.toList

end Json

namespace LoadOptions

/-- Reads the options from a text. -/
def read? (text : String) : Option LoadOptions :=
  (Value.parse? text).bind ofJson?

/-- The members of this name. -/
def named (name : String) (members : List (Option String × Value)) : List (Option String × Value) :=
  members.filter (·.1 = some name)

/-- Every name is a text. -/
def AllNamed (members : List (Option String × Value)) : Prop :=
  ∀ m ∈ members, m.1 ≠ none

/-- The limit in digits, or the default if there is none. -/
inductive StatesLimit (members : List (Option String × Value)) : UInt64 → Prop where
  | given {digits : List Char} {limit : UInt64}
    (once : named "max_file_size" members = [(some "max_file_size", .number digits)])
    (plain : ∀ c ∈ digits, c.isDigit = true)
    (value : Nat.ofDigitChars 10 digits 0 = limit.toNat) : StatesLimit members limit
  | missing (never : named "max_file_size" members = []) : StatesLimit members 0x40000000

/-- The members state the strategy, once and by its name, or leave it to the default. -/
inductive StatesStrategy (members : List (Option String × Value)) : LoadStrategy → Prop where
  | read (once : named "strategy" members = [(some "strategy", .string (some "Read"))]) :
    StatesStrategy members .read
  | map (once : named "strategy" members = [(some "strategy", .string (some "Map"))]) :
    StatesStrategy members .map
  | missing (never : named "strategy" members = []) : StatesStrategy members .read

/-- Why an object gives no options: a name is no text, a member comes twice, or the limit has a
sign, a fraction or an exponent or is too large. -/
inductive Refuses (members : List (Option String × Value)) : Prop where
  | unnamed (unnamed : ¬AllNamed members)
  | repeated {name : String} (known : name = "max_file_size" ∨ name = "strategy")
    (twice : 2 ≤ (named name members).length)
  | foreign {spelling : List Char} (mem : (some "max_file_size", .number spelling) ∈ members)
    {c : Char} (sign : c ∈ spelling) (noDigit : c.isDigit = false)
  | large {digits : List Char} (mem : (some "max_file_size", .number digits) ∈ members)
    (plain : ∀ c ∈ digits, c.isDigit = true) (large : 2 ^ 64 ≤ Nat.ofDigitChars 10 digits 0)

variable {members members' : List (Option String × Value)} {text text' : String}

/-! ## What is read -/

theorem membersOf_eq (name : String) :
    membersOf name members = (named name members).map (·.2) := by
  induction members with
  | nil => rfl
  | cons m members ih =>
    unfold membersOf named at *
    rw [List.filterMap_cons, ih]
    by_cases h : m.1 = some name
    · simp [h]
    · simp [h]

theorem allNamed_iff : members.any (·.1.isNone) = false ↔ AllNamed members := by
  simp [AllNamed, Option.ne_none_iff_isSome]

/-- An object gives options where each known member gives its part of them. -/
theorem ofJson?_eq_some_iff {o : LoadOptions} :
    ofJson? (.object members) = some o ↔ AllNamed members ∧
      member? defaults.maxFileSize limit? ((named "max_file_size" members).map (·.2)) =
        some o.maxFileSize ∧
      member? defaults.strategy (Choice.ofJson? LoadStrategy)
        ((named "strategy" members).map (·.2)) = some o.strategy := by
  rw [← allNamed_iff, ← membersOf_eq, ← membersOf_eq]
  show (if members.any (·.1.isNone) = true then none else _) = _ ↔ _
  split
  · next h => exact ⟨nofun, fun ⟨hn, _⟩ => absurd (h.symm.trans hn) (by decide)⟩
  · next h =>
    rw [Bool.not_eq_true] at h
    rcases o with ⟨limit, strategy⟩
    simp [h, Option.bind_eq_some_iff]

theorem read?_of_objectText (h : ObjectText text members) :
    read? text = ofJson? (.object members) := by
  rw [read?, Value.parse?_of_spells h]
  rfl

/-- A limit is its digits, as long as they make up a word. -/
theorem limit?_eq_some_iff {spelling : List Char} {limit : UInt64} :
    limit? (.number spelling) = some limit ↔
      (∀ c ∈ spelling, c.isDigit = true) ∧ Nat.ofDigitChars 10 spelling 0 = limit.toNat := by
  show (if spelling.all Char.isDigit = true then _ else none) = _ ↔ _
  by_cases h : spelling.all Char.isDigit = true
  · rw [if_pos h, Option.map_eq_some_iff]
    simp only [Decimal.word?_eq_some_iff]
    constructor
    · rintro ⟨n, ⟨hn, hlt⟩, rfl⟩
      exact ⟨List.all_eq_true.1 h, by rw [hn, UInt64.toNat_ofNat_of_lt' hlt]⟩
    · exact fun ⟨_, hn⟩ => ⟨_, ⟨hn, limit.toNat_lt⟩, UInt64.ofNat_toNat⟩
  · rw [if_neg h]
    exact ⟨nofun, fun ⟨hall, _⟩ => absurd (List.all_eq_true.2 hall) h⟩

section Member

variable {α : Type} {default : α} {read : Value → Option α} {l l' : List Value}

/-- A member that is stated twice is refused, even if both say the same. -/
theorem member?_of_two (h : 2 ≤ l.length) : member? default read l = none := by
  match l, h with
  | _ :: _ :: _, _ => rfl

theorem read_of_member? {a : α} {v : Value} (h : member? default read l = some a) (hv : v ∈ l) :
    read v = some a := by
  match l, hv with
  | [_], .head _ => exact h
  | _ :: _ :: _, _ => cases h

/-- Where a member is given once there is no order, and otherwise only how often counts. -/
theorem member?_perm (h : l.Perm l') : member? default read l = member? default read l' := by
  match l with
  | [] => rw [List.nil_perm.1 h]
  | [v] => rw [List.singleton_perm.1 h]
  | _ :: _ :: l => rw [member?_of_two (by simp), member?_of_two (by rw [← h.length_eq]; simp)]

end Member

theorem member?_limit {limit : UInt64} (h : StatesLimit members limit) :
    member? defaults.maxFileSize limit? ((named "max_file_size" members).map (·.2)) =
      some limit := by
  cases h with
  | given once plain value =>
    rw [once]
    exact limit?_eq_some_iff.2 ⟨plain, value⟩
  | missing never =>
    rw [never]
    rfl

theorem member?_strategy {strategy : LoadStrategy} (h : StatesStrategy members strategy) :
    member? defaults.strategy (Choice.ofJson? LoadStrategy)
      ((named "strategy" members).map (·.2)) = some strategy := by
  cases h with
  | read once | map once =>
    rw [once]
    rfl
  | missing never =>
    rw [never]
    rfl

/-- Members of other names, and the order, have no part in what is read. -/
theorem ofJson?_congr (hn : AllNamed members ↔ AllNamed members')
    (h : ∀ name ∈ ["max_file_size", "strategy"], (named name members).Perm (named name members')) :
    ofJson? (.object members) = ofJson? (.object members') := by
  refine Option.ext fun o => ?_
  rw [ofJson?_eq_some_iff, ofJson?_eq_some_iff, hn,
    member?_perm ((h "max_file_size" (.head _)).map (·.2)),
    member?_perm ((h "strategy" (.tail _ (.head _))).map (·.2))]

theorem ofJson?_of_refuses (h : Refuses members) : ofJson? (.object members) = none := by
  refine Option.eq_none_iff_forall_ne_some.2 fun o ho => ?_
  obtain ⟨hnamed, hlimit, hstrategy⟩ := ofJson?_eq_some_iff.1 ho
  have hnumber : ∀ {spelling}, (some "max_file_size", .number spelling) ∈ members →
      limit? (.number spelling) = some o.maxFileSize := by
    intro spelling hmem
    refine read_of_member? hlimit (List.mem_map.2 ⟨_, List.mem_filter.2 ⟨hmem, ?_⟩, rfl⟩)
    exact decide_eq_true rfl
  cases h with
  | unnamed unnamed => exact unnamed hnamed
  | repeated known twice =>
    rcases known with rfl | rfl
    · rw [member?_of_two (by rwa [List.length_map])] at hlimit
      cases hlimit
    · rw [member?_of_two (by rwa [List.length_map])] at hstrategy
      cases hstrategy
  | foreign mem sign noDigit =>
    have hdigit := (limit?_eq_some_iff.1 (hnumber mem)).1 _ sign
    rw [noDigit] at hdigit
    cases hdigit
  | large mem plain large =>
    have hvalue := (limit?_eq_some_iff.1 (hnumber mem)).2
    have hlt := o.maxFileSize.toNat_lt
    omega

/-- The text that is written is an object with both members and no blanks. -/
theorem objectText_toJson (o : LoadOptions) :
    ObjectText o.toJson [(some "max_file_size", .number (Nat.toDigits 10 o.maxFileSize.toNat)),
      (some "strategy", .string (some (Choice.name o.strategy)))] := by
  have limit := Spells.plainMember (show Plain "max_file_size" by decide)
    (.number (.unsigned (unsigned_toDigits o.maxFileSize.toNat)))
  have hname : Plain (Choice.name o.strategy) := by
    cases o.strategy <;> decide
  have strategy := Spells.plainMember (show Plain "strategy" by decide) (.string (.plain hname))
  have object := Spells.bare (.object (.moreMembers limit (.lastMember strategy)))
  have htext : o.toJson = "\x7b\"max_file_size\":" ++ toString o.maxFileSize.toNat ++
      ",\"strategy\":" ++ Choice.toJson o.strategy ++ "\x7d" := rfl
  unfold ObjectText
  rw [htext]
  simp only [String.toList_append, Choice.toJson, Nat.toString_eq_ofList_toDigits,
    String.toList_ofList, List.append_assoc, List.cons_append] at object ⊢
  exact object

end LoadOptions

/-- The text that is written for options is read as these options. A text of an object with each
known member at most once, a limit of digits alone that fits 64 bits and a strategy by its name, is
read as what it states, with the default for what it does not state; what is read depends neither on
the order of the members nor on others. An object that has a known member twice or another number
for a limit is refused whatever its other members are, and so is any object with more than blanks
behind it. -/
theorem options_survive_json :
    (∀ o : LoadOptions, LoadOptions.read? o.toJson = some o) ∧
    (∀ text members, ObjectText text members → LoadOptions.AllNamed members → ∀ o : LoadOptions,
      LoadOptions.StatesLimit members o.maxFileSize →
      LoadOptions.StatesStrategy members o.strategy → LoadOptions.read? text = some o) ∧
    (∀ text members text' members', ObjectText text members → ObjectText text' members' →
      (LoadOptions.AllNamed members ↔ LoadOptions.AllNamed members') →
      (∀ name ∈ ["max_file_size", "strategy"],
        (LoadOptions.named name members).Perm (LoadOptions.named name members')) →
      LoadOptions.read? text = LoadOptions.read? text') ∧
    (∀ text members, ObjectText text members → LoadOptions.Refuses members →
      LoadOptions.read? text = none) ∧
    ∀ text members behind, ObjectText text members → ¬Blanks behind.toList →
      LoadOptions.read? (text ++ behind) = none := by
  have hstates : ∀ text members, ObjectText text members → LoadOptions.AllNamed members →
      ∀ o : LoadOptions, LoadOptions.StatesLimit members o.maxFileSize →
      LoadOptions.StatesStrategy members o.strategy → LoadOptions.read? text = some o := by
    intro text members h hn o hl hs
    rw [LoadOptions.read?_of_objectText h,
      LoadOptions.ofJson?_eq_some_iff.2
        ⟨hn, LoadOptions.member?_limit hl, LoadOptions.member?_strategy hs⟩]
  refine ⟨fun o => hstates _ _ o.objectText_toJson ?_ o ?_ ?_, hstates, ?_, ?_, ?_⟩
  · simp [LoadOptions.AllNamed]
  · exact .given rfl (Json.digits_toDigits _).2 Nat.ofDigitChars_ten_toDigits
  · rcases o with ⟨limit, _ | _⟩
    · exact .read rfl
    · exact .map rfl
  · intro text members text' members' h h' hn hp
    rw [LoadOptions.read?_of_objectText h, LoadOptions.read?_of_objectText h',
      LoadOptions.ofJson?_congr hn hp]
  · intro text members h hr
    rw [LoadOptions.read?_of_objectText h, LoadOptions.ofJson?_of_refuses hr]
  · intro text members behind h hb
    rw [LoadOptions.read?, Value.parse?_append h (fun _ => trivial) hb]
    rfl

/-- Two texts with the same limit, one of them with blanks and with a member of another name, and
one with a limit below zero. -/
theorem options_survive_json_spaced :
    let spaced := "\x7b \"a\":[ ],\"max_file_size\":7 \x7d"
    LoadOptions.read? spaced = some { maxFileSize := 7 } ∧
      LoadOptions.read? spaced = LoadOptions.read? "\x7b\"max_file_size\":7\x7d" ∧
      LoadOptions.read? "\x7b\"max_file_size\":-7\x7d" = none ∧
      LoadOptions.read? (spaced ++ " 8") = none := by
  intro spaced
  have blank : Blanks [' '] := by decide
  have hspaced : ObjectText spaced
      [(some "a", .array []), (some "max_file_size", .number (Nat.toDigits 10 7))] := by
    have other := Spells.member blank (.plain (show Plain "a" by decide)) .nil
      (.bare (.emptyArray blank))
    have limit := Spells.member .nil (.plain (show Plain "max_file_size" by decide)) .nil
      (.element .nil (.number (.unsigned (unsigned_toDigits 7))) blank)
    have object := Spells.bare (.object (.moreMembers other (.lastMember limit)))
    exact (congrArg (Spells _) (by decide)).mp object
  have hlimit : ∀ {text : String} {spelling : List Char}, Number spelling →
      '\x7b' :: ('"' :: ("max_file_size".toList ++ '"' :: ':' :: spelling) ++ ['\x7d']) =
        text.toList → ObjectText text [(some "max_file_size", .number spelling)] :=
    fun hn ht => (congrArg (Spells _) ht).mp
      (.bare (.object (.lastMember (.plainMember (by decide) (.number hn)))))
  obtain ⟨-, hstates, hsame, hrefuses, hbehind⟩ := options_survive_json
  have hnamed : LoadOptions.AllNamed
      [(some "a", .array []), (some "max_file_size", .number (Nat.toDigits 10 7))] := by
    simp [LoadOptions.AllNamed]
  refine ⟨hstates _ _ hspaced hnamed _ (.given rfl (digits_toDigits 7).2 (by decide))
      (.missing rfl),
    hsame _ _ _ _ hspaced (hlimit (.unsigned (unsigned_toDigits 7)) (by decide))
      (iff_of_true hnamed (List.forall_mem_cons.1 hnamed).2) ?_,
    hrefuses _ _ (hlimit (.negative (unsigned_toDigits 7)) (by decide))
      (.foreign (.head _) (.head _) (by decide)),
    hbehind _ _ _ hspaced (by decide)⟩
  intro name hname
  simp only [List.mem_cons, List.not_mem_nil, or_false] at hname
  rcases hname with rfl | rfl <;> exact .refl _

end ElfFormat
