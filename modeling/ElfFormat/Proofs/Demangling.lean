import ElfFormat.Demangle
import ElfFormat.Proofs.Texts

/-!
# Detection and demangling

Which family a name is of and what it is demangled to are two questions that are answered one apart
from the other, from the same signs: whether the Rust demangler takes the name, how the name opens
and, for the second one only, whether the C++ demangler takes it. `Demanglers.Verdict` has both
answers side by side, one case for each way in which the signs can fall out, and the two functions
give just these pairs (`Demanglers.verdict_iff`). Whatever the demanglers are, what is to hold of
the two answers together is looked up in the four cases.
-/

namespace ElfFormat

namespace Demangle.Itanium

/-- The name opens with one of the two marks of the scheme. -/
def Opens (name : String) : Prop :=
  ∃ rest, name = "_Z" ++ rest ∨ name = "__Z" ++ rest

theorem body?_eq_some_iff {cs rest : List Char} :
    body? cs = some rest ↔ cs = '_' :: 'Z' :: rest ∨ cs = '_' :: '_' :: 'Z' :: rest := by
  constructor
  · intro h
    unfold body? at h
    split at h
    · exact .inl (by rw [Option.some.inj h])
    · exact .inr (by rw [Option.some.inj h])
    · simp at h
  · rintro (rfl | rfl) <;> rfl

theorem isMarked_iff {name : String} : isMarked name = true ↔ Opens name := by
  unfold isMarked Opens
  rw [Option.isSome_iff_exists]
  constructor
  · rintro ⟨rest, h⟩
    refine ⟨.ofList rest, ?_⟩
    rw [body?_eq_some_iff] at h
    rcases h with h | h
    · exact .inl (String.toList_inj.1 (by simp [h]))
    · exact .inr (String.toList_inj.1 (by simp [h]))
  · rintro ⟨rest, rfl | rfl⟩
    · exact ⟨rest.toList, body?_eq_some_iff.2 (by simp)⟩
    · exact ⟨rest.toList, body?_eq_some_iff.2 (by simp)⟩

end Demangle.Itanium

namespace Demanglers

open Demangle.Itanium (Opens isMarked_iff)

variable {d : Demanglers} {name : String}

/-- The family of a name and its demangled form. -/
inductive Verdict (d : Demanglers) (name : String) : Flavor → Option Demangled → Prop where
  | rust {text : String} (taken : d.rust name = some text) :
    Verdict d name .rust (some { mangled := name, text, flavor := .rust })
  | itanium {text : String} (refused : d.rust name = none) (opens : Opens name)
    (taken : d.itanium name = some text) :
    Verdict d name .itanium (some { mangled := name, text, flavor := .itanium })
  /-- The name only opens like one that could be demangled. -/
  | broken (refused : d.rust name = none) (opens : Opens name) (refused' : d.itanium name = none) :
    Verdict d name .itanium none
  | unknown (refused : d.rust name = none) (foreign : ¬Opens name) : Verdict d name .unknown none

/-- The two chains of tests come to one verdict. -/
theorem verdict (d : Demanglers) (name : String) :
    d.Verdict name (d.flavor name) (d.demangle? name) := by
  unfold flavor demangle?
  rcases hr : d.rust name with _ | text
  · by_cases hm : Demangle.Itanium.isMarked name = true
    · simp only [hm, Option.isSome_none, Bool.false_eq_true, if_false, if_true]
      rcases hi : d.itanium name with _ | text
      · exact .broken hr (isMarked_iff.1 hm) hi
      · exact .itanium hr (isMarked_iff.1 hm) hi
    · simp only [hm, Option.isSome_none, Bool.false_eq_true, if_false]
      exact .unknown hr (mt isMarked_iff.2 hm)
  · exact .rust hr

namespace Verdict

variable {f f' : Flavor} {result result' : Option Demangled}

/-- There is one verdict on each name. -/
theorem unique (h : d.Verdict name f result) (h' : d.Verdict name f' result') :
    f = f' ∧ result = result' := by
  cases h <;> cases h' <;> simp_all

theorem of_some {r : Demangled} (h : d.Verdict name f (some r)) :
    r.mangled = name ∧ r.flavor = f ∧ (f = .rust ∨ f = .itanium) := by
  cases h with
  | rust => exact ⟨rfl, rfl, .inl rfl⟩
  | itanium => exact ⟨rfl, rfl, .inr rfl⟩

theorem of_rust (h : d.Verdict name .rust result) : ∃ r, result = some r := by
  cases h with
  | rust => exact ⟨_, rfl⟩

theorem of_unknown (h : d.Verdict name .unknown result) : result = none := by
  cases h with
  | unknown => rfl

theorem of_itanium (h : d.Verdict name .itanium result) :
    Opens name ∧ d.rust name = none ∧
      ((∃ r, result = some r) ↔ ∃ text, d.itanium name = some text) := by
  cases h with
  | itanium refused opens taken => exact ⟨opens, refused, by simp [taken]⟩
  | broken refused opens refused' => exact ⟨opens, refused, by simp [refused']⟩

end Verdict

theorem verdict_iff {f : Flavor} {result : Option Demangled} :
    d.flavor name = f ∧ d.demangle? name = result ↔ d.Verdict name f result := by
  constructor
  · rintro ⟨rfl, rfl⟩
    exact d.verdict name
  · exact (d.verdict name).unique

end Demanglers

namespace Symbol

variable {s : Symbol} {d : Demanglers} {sections : SectionTable}

theorem demangledName?_of_ok {name : String} (h : s.name sections = .ok name) :
    s.demangledName? d sections = (d.demangle? name).map (·.text) := by
  unfold demangledName?
  rw [h]
  show (d.demangle? name).bind _ = _
  cases d.demangle? name <;> rfl

theorem demangledName?_of_error {e : Error} (h : s.name sections = .error e) :
    s.demangledName? d sections = none := by
  unfold demangledName?
  rw [h]
  rfl

theorem demangledName?_eq_some_iff {text : String} :
    s.demangledName? d sections = some text ↔
      ∃ name r, s.name sections = .ok name ∧ d.demangle? name = some r ∧ r.text = text := by
  rcases h : s.name sections with e | name
  · simp [demangledName?_of_error h]
  · simp [demangledName?_of_ok h]

end Symbol

/-- Whatever the two demanglers do, demangling and detection answer alike. What is demangled is the
name that was asked for, in the family that is detected for it, which is one of the two; a name that
is detected as a Rust name is demangled, one of no family is not, and one that opens like a C++ name
and is no Rust name is demangled where the C++ demangler takes it. A symbol has a demangled name
where its name can be read and is demangled. -/
theorem demangling_agrees_with_flavor (d : Demanglers) :
    (∀ name f result, d.flavor name = f ∧ d.demangle? name = result ↔ d.Verdict name f result) ∧
    (∀ name r, d.demangle? name = some r → r.mangled = name ∧ r.flavor = d.flavor name ∧
      (d.flavor name = .rust ∨ d.flavor name = .itanium)) ∧
    (∀ name, d.flavor name = .rust → ∃ r, d.demangle? name = some r) ∧
    (∀ name, d.flavor name = .unknown → d.demangle? name = none) ∧
    (∀ name, d.flavor name = .itanium → Demangle.Itanium.Opens name ∧ d.rust name = none ∧
      ((∃ r, d.demangle? name = some r) ↔ ∃ text, d.itanium name = some text)) ∧
    ∀ (s : Symbol) (sections : SectionTable),
      (∀ text, s.demangledName? d sections = some text ↔
        ∃ name r, s.name sections = .ok name ∧ d.demangle? name = some r ∧ r.text = text) ∧
      ∀ e, s.name sections = .error e → s.demangledName? d sections = none := by
  have hv := d.verdict
  refine ⟨fun _ _ _ => Demanglers.verdict_iff, fun name r h => ?_, fun name h => ?_,
    fun name h => ?_, fun name h => ?_, fun s sections =>
      ⟨fun _ => Symbol.demangledName?_eq_some_iff, fun _ => Symbol.demangledName?_of_error⟩⟩
  · exact (h ▸ hv name).of_some
  · exact (h ▸ hv name).of_rust
  · exact (h ▸ hv name).of_unknown
  · exact (h ▸ hv name).of_itanium

/-- One section, which holds the name `_Z3foov`. -/
def mangledNames : SectionTable where
  sections := #[{
    index := 0
    header := { name := 0, type := 3, flags := 0, address := 0, offset := 0, size := 9, link := 0
                info := 0, alignment := 0, entrySize := 0 }
    decoded := .mk fun _ => .ok (.strings ⟨.ofList 0 (Utf8.encode "\x00_Z3foov\x00") .little⟩) }]
  nameIndex := 0

/-- A name of the older Rust scheme, which opens like a C++ name too; one that does no more than
that; one of neither family; and two symbols, of which the second one says that its name is in a
section that is not there. -/
theorem demangling_agrees_with_flavor_standard :
    let d := Demanglers.standard
    let named : Symbol :=
      { nameOffset := 1, value := 0, size := 0, info := 0, other := 0, sectionIndex := 0, link := 0
        elfClass := .elf64 }
    (∃ r, d.demangle? "_ZN3foo3barE" = some r ∧ r.flavor = .rust) ∧
      Demangle.Itanium.Opens "__Zfoo" ∧ d.demangle? "__Zfoo" = none ∧ d.demangle? "main" = none ∧
      named.demangledName? d mangledNames = some "foo()" ∧
      { named with link := 1 : Symbol }.demangledName? d mangledNames = none := by
  intro d named
  obtain ⟨hverdict, hresult, hrust, hunknown, hitanium, hsymbol⟩ := demangling_agrees_with_flavor d
  have hbar : d.flavor "_ZN3foo3barE" = .rust := by decide +kernel
  obtain ⟨r, hr⟩ := hrust _ hbar
  obtain ⟨hopens, -, hiff⟩ := hitanium "__Zfoo" (by decide +kernel)
  have hfoo := (hverdict _ _ (some { mangled := "_Z3foov", text := "foo()", flavor := _ })).2
    (.itanium (by decide +kernel) ⟨"3foov", .inl rfl⟩ (by decide +kernel))
  refine ⟨⟨r, hr, (hresult _ r hr).2.1.trans hbar⟩, hopens, ?_, hunknown _ (by decide +kernel),
    ((hsymbol named mangledNames).1 _).2 ⟨_, _, by decide +kernel, hfoo.2, rfl⟩,
    (hsymbol _ mangledNames).2 (.indexOutOfRange "section" 1 1) (by decide +kernel)⟩
  have hnone : d.itanium "__Zfoo" = none := by decide +kernel
  simpa [hnone, Option.eq_none_iff_forall_ne_some] using hiff

end ElfFormat
