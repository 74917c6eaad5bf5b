import Mathlib.Data.List.Nodup
import ElfFormat.Header
import ElfFormat.Note
import ElfFormat.Proofs.Hexadecimal
import ElfFormat.Section.Header
import ElfFormat.Segment.Header

/-!
# Labels and the values behind them

A label may be read by people who have nothing else, so no two values may share one. For tags that
rests on the tables: in a table that is `NameTable.Distinct` neither two entries nor an entry and a
number can come to one text (`NameTable.label_injective`), and the tables are (`Names.distinct`).
The text of a word of flags starts with its value, which is read back from it, and the names behind
that are those of the bits that are set (`FlagTable.read?_text`, `FlagTable.lists_namesOf`).
-/

namespace ElfFormat

namespace NameTable

/-- Each tag has one name and each name one tag, and no name could be taken for the text that stands
for a tag without one. -/
structure Distinct (table : NameTable) : Prop where
  tags : (table.map (·.1)).Nodup
  names : (table.map (·.2)).Nodup
  known : ∀ entry ∈ table, entry.2.front ≠ 'u'

instance (table : NameTable) : Decidable table.Distinct :=
  decidable_of_iff
    ((table.map (·.1)).Nodup ∧ (table.map (·.2)).Nodup ∧ ∀ entry ∈ table, entry.2.front ≠ 'u')
    ⟨fun ⟨tags, names, known⟩ => ⟨tags, names, known⟩, fun h => ⟨h.tags, h.names, h.known⟩⟩

/-- The records are labelled with the names of their tags, or with the number where there is no
name, and no two tags have one label. -/
structure Labels {ρ τ : Type} (table : NameTable) (tag : ρ → τ) (value : τ → Nat)
    (label : ρ → String) : Prop where
  named : ∀ r name, (value (tag r), name) ∈ table → label r = name
  unnamed : ∀ r, (∀ name, (value (tag r), name) ∉ table) →
    ∃ ds, Hex.Writes 1 (value (tag r)) ds ∧ label r = "unknown (0x" ++ .ofList ds ++ ")"
  apart : ∀ r s, label r = label s → tag r = tag s

variable {table : NameTable} {tag tag' : Nat} {name : String}

theorem unknown_eq (tag : Nat) :
    unknown tag = "unknown (0x" ++ .ofList (Hex.digits tag) ++ ")" :=
  String.toList_inj.1 (by simp [unknown, Hex.text, toString])

theorem unknown_injective : Function.Injective unknown := by
  intro a b h
  rw [unknown_eq, unknown_eq] at h
  have hdigits : Hex.digits a = Hex.digits b := by simpa using congrArg String.toList h
  rw [← Hex.value_digits a, hdigits, Hex.value_digits]

theorem label_of_mem (h : table.Distinct) (hm : (tag, name) ∈ table) : table.label tag = name := by
  unfold label
  rcases hl : table.lookup tag with _ | found
  · have hne := List.lookup_eq_none_iff.1 hl _ hm
    simp at hne
  · obtain ⟨before, behind, rfl, -⟩ := List.lookup_eq_some_iff.1 hl
    have hentry := List.inj_on_of_nodup_map h.tags hm (List.mem_append_right _ (.head _)) rfl
    exact (congrArg Prod.snd hentry).symm

theorem label_of_absent (ha : ∀ name, (tag, name) ∉ table) : table.label tag = unknown tag := by
  have hl : table.lookup tag = none := by
    rw [List.lookup_eq_none_iff]
    rintro ⟨tag', name⟩ hm
    rw [bne_iff_ne]
    rintro rfl
    exact ha name hm
  rw [label, hl, Option.getD_none]

theorem label_cases (h : table.Distinct) (tag : Nat) :
    (∃ name, (tag, name) ∈ table ∧ table.label tag = name) ∨ table.label tag = unknown tag := by
  by_cases ha : ∃ name, (tag, name) ∈ table
  · obtain ⟨name, hm⟩ := ha
    exact .inl ⟨name, hm, label_of_mem h hm⟩
  · exact .inr (label_of_absent (not_exists.1 ha))

theorem ne_unknown_of_mem (h : table.Distinct) (hm : (tag, name) ∈ table) :
    name ≠ unknown tag' := by
  rintro rfl
  exact h.known _ hm (by simp [unknown_eq, String.front?_eq])

/-- Names differ from each other and from what says a number. -/
theorem label_injective (h : table.Distinct) : Function.Injective table.label := by
  intro a b hab
  rcases label_cases h a with ⟨name, ha, hname⟩ | ha
  · rw [hname] at hab
    rcases label_cases h b with ⟨name', hb, hname'⟩ | hb
    · rw [hname'] at hab
      exact congrArg Prod.fst (List.inj_on_of_nodup_map h.names ha hb hab)
    · exact absurd (hab.trans hb) (ne_unknown_of_mem h ha)
  · rw [ha] at hab
    rcases label_cases h b with ⟨name, hb, hname⟩ | hb
    · exact absurd (hname.symm.trans hab.symm) (ne_unknown_of_mem h hb)
    · exact unknown_injective (hab.trans hb)

theorem Distinct.labels {ρ τ : Type} (h : table.Distinct) (tag : ρ → τ) {value : τ → Nat}
    (hv : Function.Injective value) :
    table.Labels tag value fun r => table.label (value (tag r)) where
  named _ _ hm := label_of_mem h hm
  unnamed _ ha := ⟨_, Hex.writes_digits _, (label_of_absent ha).trans (unknown_eq _)⟩
  apart _ _ hl := hv (label_injective h hl)

end NameTable

namespace Names

/-- The tables of tags that no two labels may share. -/
def tagTables : List NameTable :=
  [sectionTypes, segmentTypes, objectTypes, machines, osAbis, gnuNotes, coreNotes, []]

theorem distinct : ∀ table ∈ tagTables, table.Distinct := by
  decide +kernel

theorem distinct_noteTypes (owner : String) : (noteTypes owner).Distinct := by
  refine distinct _ ?_
  unfold noteTypes
  split_ifs <;> simp [tagTables]

end Names

namespace FlagTable

/-- The names of the bits that are set, each once and in the order of the table. -/
structure Lists (table : FlagTable) (flags : Nat) (names : List String) : Prop where
  mem_iff : ∀ name, name ∈ names ↔
    ∃ position, (position, name) ∈ table ∧ flags.testBit position = true
  nodup : names.Nodup
  ordered : names.Sublist (table.map (·.2))

/-- The records are described by the values of their flags with at least eight digits, from which
the flags are read back, and behind that by the names of the bits that are set. What is behind the
value does not depend on bits without a name. -/
structure Describes {ρ : Type} (table : FlagTable) (style : FlagStyle) (flags : ρ → Nat)
    (text : ρ → String) : Prop where
  shows : ∀ r, ∃ ds names, Hex.Writes 8 (flags r) ds ∧ table.Lists (flags r) names ∧
    text r = "0x" ++ .ofList ds ++ if names = [] then ""
      else style.opening ++ style.separator.intercalate names ++ style.closing
  reads : ∀ r s, (∀ entry ∈ table, (flags r).testBit entry.1 = (flags s).testBit entry.1) →
    ∃ rest, Hex.read? (text r).toList = some (flags r, rest) ∧
      Hex.read? (text s).toList = some (flags s, rest)

variable {table : FlagTable} {style : FlagStyle} {flags flags' : Nat}

theorem lists_namesOf (h : (table.map (·.2)).Nodup) (flags : Nat) :
    table.Lists flags (table.namesOf flags) := by
  have hsub : (table.namesOf flags).Sublist (table.map (·.2)) := List.filter_sublist.map _
  exact ⟨fun name => by simp [namesOf], h.sublist hsub, hsub⟩

theorem namesOf_congr
    (h : ∀ entry ∈ table, flags.testBit entry.1 = flags'.testBit entry.1) :
    table.namesOf flags = table.namesOf flags' :=
  congrArg (List.map _) (List.filter_congr h)

theorem render_eq (style : FlagStyle) (names : List String) :
    style.render names = if names = [] then ""
      else style.opening ++ style.separator.intercalate names ++ style.closing := by
  cases names <;> rfl

/-- No digit stands behind the value, so it is read back. -/
theorem read?_text (hs : style.opening.toList.head? = some ' ') (flags : Nat) :
    Hex.read? (table.text style flags).toList =
      some (flags, (style.render (table.namesOf flags)).toList) := by
  have hrest : ∀ c ∈ (style.render (table.namesOf flags)).toList.head?, c ∉ Hex.alphabet := by
    intro c hc
    rw [render_eq] at hc
    split_ifs at hc
    · simp at hc
    · simp [hs] at hc
      subst hc
      decide
  have h := (Hex.writes_padded (show 0 < 8 by decide) flags).read?_eq hrest
  simpa [text, Hex.padded] using h

theorem describes {ρ : Type} (h : (table.map (·.2)).Nodup)
    (hs : style.opening.toList.head? = some ' ') (flags : ρ → Nat) :
    table.Describes style flags fun r => table.text style (flags r) where
  shows r := ⟨_, _, Hex.writes_padded (by decide) _, lists_namesOf h _, by
    rw [text, Hex.padded, render_eq]⟩
  reads r s hbits := ⟨_, read?_text hs _, by rw [read?_text hs, namesOf_congr hbits]⟩

end FlagTable

/-- The owner picks the table, so one table names the types of all notes of an owner. -/
theorem Note.labels (owner : String) :
    (Names.noteTypes owner).Labels (fun n : { n : Note // n.name = owner } => n.1.type)
      UInt32.toNat fun n => n.1.typeLabel := by
  have hlabel : (fun n : { n : Note // n.name = owner } => n.1.typeLabel) =
      fun n => (Names.noteTypes owner).label n.1.type.toNat :=
    funext fun n => by rw [Note.typeLabel, n.2]
  rw [hlabel]
  exact (Names.distinct_noteTypes owner).labels _ fun _ _ => UInt32.toNat_inj.1

/-- A label stands for one tag only: it is the name of the tag in its table, or says its number.
This holds of the types of sections and segments, of what file headers tell of their file, and of
the types of notes of one owner. A text of flags tells the whole word, by its value, and the bits
that have a name, by these; other bits show in the value alone. -/
theorem labels_keep_values_apart :
    Names.sectionTypes.Labels SectionHeader.type UInt32.toNat SectionHeader.typeLabel ∧
    Names.segmentTypes.Labels ProgramHeader.type UInt32.toNat ProgramHeader.typeLabel ∧
    Names.objectTypes.Labels FileHeader.type UInt16.toNat FileHeader.typeLabel ∧
    Names.machines.Labels FileHeader.machine UInt16.toNat FileHeader.machineLabel ∧
    Names.osAbis.Labels (fun h : FileHeader => h.ident.osAbi) UInt8.toNat FileHeader.osAbiLabel ∧
    (∀ owner, (Names.noteTypes owner).Labels (fun n : { n : Note // n.name = owner } => n.1.type)
      UInt32.toNat fun n => n.1.typeLabel) ∧
    Names.sectionFlags.Describes .listed (fun h : SectionHeader => h.flags.toNat)
      SectionHeader.flagsText ∧
    Names.segmentFlags.Describes .enclosed (fun h : ProgramHeader => h.flags.toNat)
      ProgramHeader.flagsText := by
  have hwords : Function.Injective UInt32.toNat := fun _ _ => UInt32.toNat_inj.1
  have hhalves : Function.Injective UInt16.toNat := fun _ _ => UInt16.toNat_inj.1
  have hbytes : Function.Injective UInt8.toNat := fun _ _ => UInt8.toNat_inj.1
  refine ⟨(Names.distinct _ ?_).labels _ hwords, (Names.distinct _ ?_).labels _ hwords,
    (Names.distinct _ ?_).labels _ hhalves, (Names.distinct _ ?_).labels _ hhalves,
    (Names.distinct _ ?_).labels _ hbytes, Note.labels,
    FlagTable.describes (by decide) rfl _, FlagTable.describes (by decide) rfl _⟩
  all_goals simp [Names.tagTables]

/-- A type that has a name, two without one, and flags that differ in a bit without a name. -/
theorem labels_keep_values_apart_unnamed :
    let h : SectionHeader :=
      { name := 0, type := 11, flags := 6, address := 0, offset := 0, size := 0, link := 0
        info := 0, alignment := 0, entrySize := 0 }
    let g : SectionHeader := { h with type := 12, flags := 0x80000006 }
    h.typeLabel = "SHT_DYNSYM" ∧ g.typeLabel ≠ { g with type := 0xc0 : SectionHeader }.typeLabel ∧
      ∃ rest, Hex.read? h.flagsText.toList = some (6, rest) ∧
        Hex.read? g.flagsText.toList = some (0x80000006, rest) := by
  intro h g
  obtain ⟨htype, -, -, -, -, -, hflags, -⟩ := labels_keep_values_apart
  exact ⟨htype.named h _ (by decide), fun he => absurd (htype.apart _ _ he) (by decide),
    hflags.reads h g (by decide)⟩

end ElfFormat
