import ElfFormat.Proofs.Acceptance
import ElfFormat.Proofs.Dispatch
import ElfFormat.Proofs.FirstMatch

/-!
# Build IDs and interpreters

The notes of an object are ordered by who carries them, sections in front of segments and by their
positions among themselves, and then by where they stand in their region (`NotePlace.Before`). A
region that could not be decoded has no notes, and neither has anything that carries no notes.

The build ID is the descriptor of the first note that identifies a build
(`Object.buildId?_eq_some_iff`). For that the owners are listed in their order, so that the first
match in this list is the first match in the order (`exists_isFirst_iff_of_pairwise`). Of segments
that name an interpreter the first counts that could be decoded. Both answers are bytes of the file
out of the range that their owner declares (`Image.HasBytes`).
-/

namespace ElfFormat

/-! ## The order of notes -/

/-- What can carry notes, by its position in its table. -/
inductive NoteOwner where
  | inSection (index : Nat)
  | inSegment (index : Nat)
deriving DecidableEq

/-- All sections stand before all segments. -/
inductive NoteOwner.Before : NoteOwner → NoteOwner → Prop where
  | sections {i j : Nat} (lt : i < j) : Before (.inSection i) (.inSection j)
  | across {i j : Nat} : Before (.inSection i) (.inSegment j)
  | segments {i j : Nat} (lt : i < j) : Before (.inSegment i) (.inSegment j)

/-- Where a note of an object stands: in whose region, and as which of the notes there. -/
structure NotePlace where
  owner : NoteOwner
  position : Nat

/-- Notes stand in the order of their owners, and then of their table. -/
def NotePlace.Before (p q : NotePlace) : Prop :=
  p.owner.Before q.owner ∨ p.owner = q.owner ∧ p.position < q.position

/-- A note by which the GNU tools identify a build. -/
def Note.IdentifiesBuild (n : Note) : Prop :=
  n.name = "GNU" ∧ n.type = 3

namespace Object

/-- The owner carries notes, and they could be decoded. -/
inductive Carries (o : Object) : NoteOwner → NoteTable → Prop where
  | inSection {i : Nat} {s : Section} {table : NoteTable} (get : o.sections.sections[i]? = some s)
    (decoded : s.contents = .ok (.notes table)) : Carries o (.inSection i) table
  | inSegment {i : Nat} {s : Segment} {table : NoteTable} (get : o.segments.segments[i]? = some s)
    (decoded : s.contents = .ok (.notes table)) : Carries o (.inSegment i) table

/-- The owner declares the `length` bytes at `offset` of the file to be notes. -/
inductive Declares (o : Object) : NoteOwner → (offset length : Nat) → Prop where
  | inSection {i : Nat} {s : Section} (get : o.sections.sections[i]? = some s)
    (type : s.header.type = SectionType.note) :
    Declares o (.inSection i) s.header.offset.toNat s.header.size.toNat
  | inSegment {i : Nat} {s : Segment} (get : o.segments.segments[i]? = some s)
    (type : s.header.type = SegmentType.note) :
    Declares o (.inSegment i) s.header.offset.toNat s.header.fileSize.toNat

/-- The note stands at this place of the file. -/
def HasNote (o : Object) (p : NotePlace) (n : Note) : Prop :=
  ∃ table, o.Carries p.owner table ∧ table.notes[p.position]? = some n

/-- The note satisfies `P`, and none of the object's notes in front of it does. -/
structure IsFirstNote (o : Object) (P : Note → Prop) (p : NotePlace) (n : Note) : Prop where
  has : o.HasNote p n
  holds : P n
  before : ∀ q m, q.Before p → o.HasNote q m → ¬P m

end Object

theorem NoteOwner.Before.asymm {v w : NoteOwner} : v.Before w → ¬w.Before v
  | .sections lt, .sections lt' => Nat.lt_asymm lt lt'
  | .segments lt, .segments lt' => Nat.lt_asymm lt lt'

theorem Note.isBuildId_iff {n : Note} : n.isBuildId = true ↔ n.IdentifiesBuild := by
  unfold isBuildId IdentifiesBuild
  rw [Bool.and_eq_true, beq_iff_eq, beq_iff_eq]

namespace NoteTable

variable {t : NoteTable}

/-- The build ID of a table is the descriptor of the first note that is one. -/
theorem buildId?_eq_some_iff {bytes : List UInt8} :
    t.buildId? = some bytes ↔
      ∃ k n, IsFirst t.notes Note.IdentifiesBuild k n ∧ n.descriptor.toList = bytes := by
  unfold buildId?
  simp only [Option.map_eq_some_iff, find?_eq_some_iff_isFirst fun _ _ => Note.isBuildId_iff]
  exact ⟨fun ⟨n, ⟨k, hk⟩, he⟩ => ⟨k, n, hk, he⟩, fun ⟨k, n, hk, he⟩ => ⟨n, ⟨k, hk⟩, he⟩⟩

theorem exists_buildId?_iff :
    (∃ bytes, t.buildId? = some bytes) ↔ ∃ n ∈ t.notes, n.IdentifiesBuild := by
  simp only [← Option.isSome_iff_exists, buildId?, Option.isSome_map, List.find?_isSome,
    Note.isBuildId_iff]

end NoteTable

theorem Section.noteTable?_eq_some_iff {s : Section} {table : NoteTable} :
    s.noteTable? = some table ↔ s.contents = .ok (.notes table) := by
  unfold noteTable?
  split
  · next hc => simp [hc]
  · next hc => exact ⟨nofun, fun h => absurd h (hc table)⟩

theorem Segment.noteTable?_eq_some_iff {s : Segment} {table : NoteTable} :
    s.noteTable? = some table ↔ s.contents = .ok (.notes table) := by
  unfold noteTable?
  split
  · next hc => simp [hc]
  · next hc => exact ⟨nofun, fun h => absurd h (hc table)⟩

/-! ## The first of all notes -/

theorem filterMap_range_getElem? {α : Type} (l : List α) :
    (List.range l.length).filterMap (l[·]?) = l := by
  induction l with
  | nil => rfl
  | cons a l ih => simpa [List.range_succ_eq_map, List.filterMap_map, Function.comp_def] using ih

namespace Object

variable {o : Object} {w : NoteOwner} {table : NoteTable}

/-- The notes that an owner carries. -/
def noteTableAt? (o : Object) : NoteOwner → Option NoteTable
  | .inSection i => o.sections.sections[i]?.bind (·.noteTable?)
  | .inSegment i => o.segments.segments[i]?.bind (·.noteTable?)

/-- All that can carry notes, in order. -/
def noteOwners (o : Object) : List NoteOwner :=
  (List.range o.sections.sections.size).map .inSection ++
    (List.range o.segments.segments.size).map .inSegment

theorem noteTableAt?_eq_some_iff : o.noteTableAt? w = some table ↔ o.Carries w table := by
  cases w with
  | inSection i =>
    simp only [noteTableAt?, Option.bind_eq_some_iff, Section.noteTable?_eq_some_iff]
    exact ⟨fun ⟨_, hs, hc⟩ => .inSection hs hc, fun (.inSection hs hc) => ⟨_, hs, hc⟩⟩
  | inSegment i =>
    simp only [noteTableAt?, Option.bind_eq_some_iff, Segment.noteTable?_eq_some_iff]
    exact ⟨fun ⟨_, hs, hc⟩ => .inSegment hs hc, fun (.inSegment hs hc) => ⟨_, hs, hc⟩⟩

theorem mem_noteOwners_of_carries (h : o.Carries w table) : w ∈ o.noteOwners := by
  unfold noteOwners
  cases h with
  | inSection hs =>
    obtain ⟨hi, -⟩ := Array.getElem?_eq_some_iff.1 hs
    exact List.mem_append_left _ (List.mem_map_of_mem (List.mem_range.2 hi))
  | inSegment hs =>
    obtain ⟨hi, -⟩ := Array.getElem?_eq_some_iff.1 hs
    exact List.mem_append_right _ (List.mem_map_of_mem (List.mem_range.2 hi))

/-- The owners are searched in the order of `NoteOwner.Before`. -/
theorem pairwise_noteOwners (o : Object) : o.noteOwners.Pairwise NoteOwner.Before := by
  unfold noteOwners
  rw [List.pairwise_append, List.pairwise_map, List.pairwise_map]
  refine ⟨List.pairwise_lt_range.imp .sections, List.pairwise_lt_range.imp .segments, ?_⟩
  intro v hv w hw
  obtain ⟨i, -, rfl⟩ := List.mem_map.1 hv
  obtain ⟨j, -, rfl⟩ := List.mem_map.1 hw
  exact .across

/-- The note tables are those of the owners that carry one, in the order of the owners. -/
theorem noteTables_eq (o : Object) : o.noteTables = o.noteOwners.filterMap o.noteTableAt? := by
  have hsections := congrArg (List.filterMap (·.noteTable?))
    (filterMap_range_getElem? o.sections.sections.toList)
  have hsegments := congrArg (List.filterMap (·.noteTable?))
    (filterMap_range_getElem? o.segments.segments.toList)
  simp only [List.filterMap_filterMap, Array.length_toList, Array.getElem?_toList]
    at hsections hsegments
  rw [noteTables, noteOwners, List.filterMap_append, List.filterMap_map, List.filterMap_map,
    ← hsections, ← hsegments]
  rfl

theorem buildId?_eq (o : Object) :
    o.buildId? = o.noteOwners.findSome? fun w => (o.noteTableAt? w).bind (·.buildId?) := by
  rw [buildId?, noteTables_eq, ← List.head?_filterMap, List.filterMap_filterMap,
    List.head?_filterMap]

/-- The owner has a note that identifies the build. -/
def CarriesBuildId (o : Object) (w : NoteOwner) : Prop :=
  ∃ k n, o.HasNote ⟨w, k⟩ n ∧ n.IdentifiesBuild

theorem carriesBuildId_iff :
    (∃ bytes, (o.noteTableAt? w).bind (·.buildId?) = some bytes) ↔ o.CarriesBuildId w := by
  simp only [Option.bind_eq_some_iff, noteTableAt?_eq_some_iff]
  constructor
  · rintro ⟨bytes, table, hc, hb⟩
    obtain ⟨n, hn, hid⟩ := NoteTable.exists_buildId?_iff.1 ⟨bytes, hb⟩
    obtain ⟨k, hk⟩ := List.mem_iff_getElem?.1 hn
    exact ⟨k, n, ⟨table, hc, hk⟩, hid⟩
  · rintro ⟨k, n, ⟨table, hc, hk⟩, hid⟩
    obtain ⟨bytes, hb⟩ := NoteTable.exists_buildId?_iff.2 ⟨n, List.mem_of_getElem? hk, hid⟩
    exact ⟨bytes, table, hc, hb⟩

theorem Carries.unique {table' : NoteTable} (h : o.Carries w table) (h' : o.Carries w table') :
    table = table' := by
  rw [← noteTableAt?_eq_some_iff] at h h'
  exact Option.some.inj (h.symm.trans h')

/-- The first note stands with the first owner that has such a note, and there in front of the
others. -/
theorem isFirstNote_iff {P : Note → Prop} {p : NotePlace} {n : Note} :
    o.IsFirstNote P p n ↔
      (∀ w, w.Before p.owner → ∀ k m, o.HasNote ⟨w, k⟩ m → ¬P m) ∧
        ∃ table, o.Carries p.owner table ∧ IsFirst table.notes P p.position n := by
  constructor
  · rintro ⟨⟨table, hc, hget⟩, hp, hbefore⟩
    refine ⟨fun w hw k m => hbefore _ m (.inl hw), table, hc, hget, hp, fun k hk m hm => ?_⟩
    exact hbefore ⟨p.owner, k⟩ m (.inr ⟨rfl, hk⟩) ⟨table, hc, hm⟩
  · rintro ⟨howner, table, hc, hget, hp, hbefore⟩
    refine ⟨⟨table, hc, hget⟩, hp, ?_⟩
    rintro ⟨w, k⟩ m (hw | ⟨rfl, hk⟩) hm
    · exact howner w hw k m hm
    · obtain ⟨table', hc', hm⟩ := hm
      obtain rfl := hc.unique hc'
      exact hbefore k hk m hm

/-- The build ID of a file is that of the first note, by owner and by position. -/
theorem buildId?_eq_some_iff {bytes : List UInt8} :
    o.buildId? = some bytes ↔
      ∃ p n, o.IsFirstNote Note.IdentifiesBuild p n ∧ n.descriptor.toList = bytes := by
  rw [buildId?_eq, findSome?_eq_some_iff_isFirst]
  simp only [carriesBuildId_iff]
  simp only [Option.bind_eq_some_iff, noteTableAt?_eq_some_iff, NoteTable.buildId?_eq_some_iff,
    isFirstNote_iff]
  have howners : ∀ {w}, (∃ i, IsFirst o.noteOwners o.CarriesBuildId i w) ↔ _ :=
    exists_isFirst_iff_of_pairwise o.pairwise_noteOwners fun _ _ => NoteOwner.Before.asymm
  constructor
  · rintro ⟨i, w, hfirst, table, hc, k, n, hn, he⟩
    obtain ⟨-, -, hbefore⟩ := howners.1 ⟨i, hfirst⟩
    refine ⟨⟨w, k⟩, n, ⟨fun v hv k m hm hid => ?_, table, hc, hn⟩, he⟩
    obtain ⟨table', hc', hm⟩ := hm
    exact hbefore v (mem_noteOwners_of_carries hc') hv ⟨k, m, ⟨table', hc', hm⟩, hid⟩
  · rintro ⟨p, n, ⟨hbefore, table, hc, hn⟩, he⟩
    obtain ⟨i, hfirst⟩ := howners.2 ⟨mem_noteOwners_of_carries hc,
      ⟨p.position, n, ⟨table, hc, hn.get_eq⟩, hn.holds⟩, fun v _ hv ⟨k, m, hm, hid⟩ =>
        hbefore v hv k m hm hid⟩
    exact ⟨i, p.owner, hfirst, table, hc, p.position, n, hn, he⟩

theorem buildId?_eq_none_iff :
    o.buildId? = none ↔ ∀ p n, o.HasNote p n → ¬n.IdentifiesBuild := by
  rw [buildId?_eq, List.findSome?_eq_none_iff]
  constructor
  · rintro h p n ⟨table, hc, hn⟩ hid
    obtain ⟨bytes, hb⟩ := carriesBuildId_iff.2 ⟨p.position, n, ⟨table, hc, hn⟩, hid⟩
    rw [h _ (mem_noteOwners_of_carries hc)] at hb
    cases hb
  · refine fun h w _ => Option.eq_none_iff_forall_ne_some.2 fun bytes hb => ?_
    obtain ⟨k, n, hn, hid⟩ := carriesBuildId_iff.1 ⟨bytes, hb⟩
    exact h _ n hn hid

end Object

/-! ## What the answers are made of -/

/-- The bytes stand at `position` in the file, inside the `length` bytes at `offset`. -/
structure Image.HasBytes (image : Image) (offset length position : Nat) (bytes : List UInt8) :
    Prop where
  range_le : offset + length ≤ image.length
  le_position : offset ≤ position
  end_le : position + bytes.length ≤ offset + length
  bytes_eq : (image.bytes.data.toList.drop position).take bytes.length = bytes

/-- The bytes of a range of the file. -/
def Image.range (image : Image) (offset length : Nat) : List UInt8 :=
  (image.bytes.data.toList.drop offset).take length

/-- The note is that of the record at this position among those in the `length` bytes at `offset`.
The padding of the record is no part of the descriptor. -/
structure Note.StandsIn (n : Note) (image : Image) (order : ByteOrder)
    (offset length position : Nat) : Prop where
  record : ∃ records tail r, NoteRegion order 0 (image.range offset length) records tail ∧
    records[position]? = some r ∧ n.name = r.owner ∧ n.type = r.type ∧
      n.descriptor.toList = r.descriptor
  descriptor : image.HasBytes offset length n.descriptor.offset n.descriptor.toList

/-- The segment names an interpreter, and what it has could be decoded. -/
def Segment.HasPath (s : Segment) : Prop :=
  s.header.type = SegmentType.interpreter ∧ s.contents.isOk = true

/-- The path is what the segment has in front of a NUL. -/
structure Segment.Names (s : Segment) (image : Image) (path : String) : Prop where
  contents : s.contents = .ok (.interpreter path)
  text : Utf8.encode path =
    (image.range s.header.offset.toNat s.header.fileSize.toNat).takeWhile (· ≠ 0)
  bytes : image.HasBytes s.header.offset.toNat s.header.fileSize.toNat s.header.offset.toNat
    (Utf8.encode path)

/-- A record gives one note, which stands in the list where the record does. -/
theorem NoteRecord.getElem?_notes {region : View} {n : Note} {records : List NoteRecord}
    {start k : Nat} (h : (notes region start records)[k]? = some n) :
    ∃ r start', records[k]? = some r ∧ n = r.note region start' := by
  induction records generalizing start k with
  | nil => cases h
  | cons r records ih =>
    cases k with
    | zero => exact ⟨r, start, rfl, (Option.some.inj h).symm⟩
    | succ k => exact ih h

section Range

variable {image : Image} {order : Option ByteOrder} {offset length : Nat} {view : View}

theorem Image.toList_of_view
    (h : { image with fixedOrder := order : Image }.view offset length = .ok view) :
    offset + length ≤ image.length ∧ view.toList = image.range offset length := by
  obtain ⟨hle, -, hlist, -⟩ := View.subview_eq_ok_iff.1 h
  rw [Image.toList_full] at hlist
  exact ⟨hle, hlist⟩

theorem View.LiesIn.hasBytes
    (h : view.LiesIn { image with fixedOrder := order } offset length)
    (hle : offset + length ≤ image.length) :
    image.HasBytes offset length view.offset view.toList := by
  obtain ⟨hview, hle', hend⟩ := h
  refine ⟨hle, hle', by rwa [View.length_toList], ?_⟩
  rw [View.length_toList]
  exact (Image.toList_of_view hview).2.symm

theorem Note.standsIn {table : NoteTable} {n : Note} {k : Nat}
    (hview : { image with fixedOrder := order : Image }.view offset length = .ok view)
    (hparse : NoteTable.parse view = .ok table) (hn : table.notes[k]? = some n)
    (inside : ∀ n ∈ table.notes,
      n.descriptor.LiesIn { image with fixedOrder := order } offset length) :
    n.StandsIn image view.order offset length k := by
  obtain ⟨hle, hlist⟩ := Image.toList_of_view hview
  refine ⟨?_, (inside n (List.mem_of_getElem? hn)).hasBytes hle⟩
  obtain ⟨records, tail, hregion, rfl⟩ := NoteTable.parse_eq_ok_iff.1 hparse
  obtain ⟨r, start, hr, rfl⟩ := NoteRecord.getElem?_notes hn
  rw [hlist] at hregion
  exact ⟨records, tail, r, hregion, hr, rfl, rfl, View.toList_ofList ..⟩

end Range

section Decoded

variable {image : Image} {c : Class} {table : NoteTable}

theorem Section.FollowsType.notes {s : Section} (h : s.FollowsType image c)
    (hc : s.contents = .ok (.notes table)) :
    s.header.type = SectionType.note ∧ ∃ view,
      image.view s.header.offset.toNat s.header.size.toNat = .ok view ∧
      NoteTable.parse view = .ok table ∧
      ∀ n ∈ table.notes, n.descriptor.LiesIn image s.header.offset.toNat s.header.size.toNat := by
  by_cases ht : s.header.type = SectionType.null ∨ s.header.type = SectionType.noBits
  · rw [h.absent ht] at hc
    cases hc
  by_cases hle : s.header.offset.toNat + s.header.size.toNat ≤ image.length
  · obtain ⟨view, hview, hshows⟩ := h.inside ht hle
    rw [hc] at hshows
    cases hshows with
    | notes type decoded _ inside => exact ⟨type, view, hview, decoded, inside⟩
  · rw [h.outside ht (Nat.not_le.1 hle)] at hc
    cases hc

theorem Segment.FollowsType.shows {s : Segment} (h : s.FollowsType image)
    {contents : SegmentContents} (hc : s.contents = .ok contents) :
    ∃ view, image.view s.header.offset.toNat s.header.fileSize.toNat = .ok view ∧
      s.header.Shows image view (.ok contents) := by
  by_cases hle : s.header.offset.toNat + s.header.fileSize.toNat ≤ image.length
  · obtain ⟨view, hview, hshows⟩ := h.inside hle
    exact ⟨view, hview, hc ▸ hshows⟩
  · rw [h.outside (Nat.not_le.1 hle)] at hc
    cases hc

end Decoded

section Interpreter

variable {image : Image} {order : Option ByteOrder} {s : Segment}

theorem Segment.interpreter?_eq_some_iff {path : String} :
    s.interpreter? = some path ↔ s.contents = .ok (.interpreter path) := by
  unfold interpreter?
  split
  · next hc => simp [hc]
  · next hc => exact ⟨nofun, fun h => absurd h (hc path)⟩

theorem Segment.names_of_contents (h : s.FollowsType { image with fixedOrder := order })
    {path : String} (hc : s.contents = .ok (.interpreter path)) : s.Names image path := by
  obtain ⟨view, hview, hshows⟩ := h.shows hc
  obtain ⟨hle, hlist⟩ := Image.toList_of_view hview
  cases hshows with
  | interpreter _ _ text =>
    rw [hlist] at text
    have hfront := (List.takeWhile_prefix (· ≠ 0)).trans (List.take_prefix
      s.header.fileSize.toNat (image.bytes.data.toList.drop s.header.offset.toNat))
    have hshort := (List.takeWhile_prefix (p := (· ≠ 0))
      (l := image.range s.header.offset.toNat s.header.fileSize.toNat)).length_le
    rw [Image.range, List.length_take, ← Image.range, ← text] at hshort
    rw [← Image.range, ← text] at hfront
    exact ⟨hc, text, hle, Nat.le_refl _, by omega, (List.prefix_iff_eq_take.1 hfront).symm⟩

/-- Whether a segment names an interpreter is a matter of its header and of the bytes in its
range. -/
theorem Segment.exists_interpreter?_iff (h : s.FollowsType { image with fixedOrder := order }) :
    (∃ path, s.interpreter? = some path) ↔ s.HasPath := by
  simp only [interpreter?_eq_some_iff]
  constructor
  · rintro ⟨path, hc⟩
    obtain ⟨view, -, hshows⟩ := h.shows hc
    cases hshows with
    | interpreter type => exact ⟨type, by rw [hc]; rfl⟩
  · rintro ⟨type, hok⟩
    rcases hc : s.contents with e | contents
    · rw [hc] at hok
      cases hok
    obtain ⟨view, -, hshows⟩ := h.shows hc
    cases hshows with
    | interpreter => exact ⟨_, rfl⟩
    | notes type' => exact absurd (type.symm.trans type') (by decide)
    | raw foreign => exact absurd type (fun he => foreign (by rw [he]; exact .head _))

end Interpreter

namespace Object

variable {image : Image} {o : Object}

/-- Whatever a decoded object carries was decoded in the order of its header. -/
theorem followsType_of_parse (h : (parse image).1 = .ok o) :
    let fixed : Image := { image with fixedOrder := some o.header.order }
    (∀ s ∈ o.sections.sections, s.FollowsType fixed o.header.elfClass) ∧
      ∀ s ∈ o.segments.segments, s.FollowsType fixed := by
  have ho := eq_found_of_parse h
  generalize o.header = header at ho ⊢
  subst ho
  refine ⟨fun s hs => ?_, fun s hs => ?_⟩
  · obtain ⟨i, hi, rfl⟩ := Array.mem_iff_getElem.1 hs
    rw [show (found _ header).sections.sections[i] = _ from FileHeader.getElem_sectionTable hi]
    exact Section.followsType rfl
  · obtain ⟨i, hi, rfl⟩ := Array.mem_iff_getElem.1 hs
    rw [show (found _ header).segments.segments[i] = _ from FileHeader.getElem_segmentTable hi]
    exact Segment.followsType rfl

/-- A note of an object is one that its owner declares and that stands in the file there. -/
theorem standsIn_of_hasNote (h : (parse image).1 = .ok o) {p : NotePlace} {n : Note}
    (hn : o.HasNote p n) :
    ∃ offset length, o.Declares p.owner offset length ∧
      n.StandsIn image o.header.order offset length p.position := by
  obtain ⟨w, k⟩ := p
  obtain ⟨table, hc, hget⟩ := hn
  obtain ⟨hsections, hsegments⟩ := followsType_of_parse h
  cases hc with
  | inSection hs decoded =>
    obtain ⟨type, view, hview, hparse, hin⟩ :=
      (hsections _ (Array.mem_of_getElem? hs)).notes decoded
    have horder : view.order = o.header.order := (View.subview_eq_ok_iff.1 hview).2.2.2
    exact ⟨_, _, .inSection hs type, horder ▸ Note.standsIn hview hparse hget hin⟩
  | inSegment hs decoded =>
    obtain ⟨view, hview, hshows⟩ := (hsegments _ (Array.mem_of_getElem? hs)).shows decoded
    have horder : view.order = o.header.order := (View.subview_eq_ok_iff.1 hview).2.2.2
    cases hshows with
    | notes type hparse _ hin =>
      exact ⟨_, _, .inSegment hs type, horder ▸ Note.standsIn hview hparse hget hin⟩

theorem interpreter?_eq_some_iff (h : (parse image).1 = .ok o) {path : String} :
    o.interpreter? = some path ↔
      ∃ i s, IsFirst o.segments.segments.toList Segment.HasPath i s ∧ s.Names image path := by
  obtain ⟨-, hsegments⟩ := followsType_of_parse h
  have hpath : ∀ s ∈ o.segments.segments.toList, (∃ path, s.interpreter? = some path) ↔ s.HasPath :=
    fun s hs => Segment.exists_interpreter?_iff (hsegments s (Array.mem_toList_iff.1 hs))
  unfold interpreter? SegmentTable.interpreter?
  rw [findSome?_eq_some_iff_isFirst]
  constructor
  · rintro ⟨i, s, hfirst, hs⟩
    have hfollows := hsegments s (Array.mem_toList_iff.1 hfirst.mem)
    exact ⟨i, s, hfirst.congr hpath,
      Segment.names_of_contents hfollows (Segment.interpreter?_eq_some_iff.1 hs)⟩
  · rintro ⟨i, s, hfirst, hs⟩
    exact ⟨i, s, hfirst.congr fun s hs => (hpath s hs).symm,
      Segment.interpreter?_eq_some_iff.2 hs.contents⟩

theorem interpreter?_eq_none_iff (h : (parse image).1 = .ok o) :
    o.interpreter? = none ↔ ∀ s ∈ o.segments.segments, ¬s.HasPath := by
  obtain ⟨-, hsegments⟩ := followsType_of_parse h
  unfold interpreter? SegmentTable.interpreter?
  simp only [List.findSome?_eq_none_iff, Array.mem_toList_iff]
  refine forall₂_congr fun s hs => ?_
  rw [← Segment.exists_interpreter?_iff (hsegments s hs), Option.eq_none_iff_forall_ne_some,
    not_exists]

end Object

/-- The build ID of an object is the descriptor of the first of its notes that identifies a build,
and nothing else keeps it from having one; a section with such a note wins over every segment. Every
note stands in the range that its owner declares. The interpreter is the path of the first segment
that names one and could be decoded, and it stands in the range of that segment. -/
theorem first_buildId_and_interpreter {image : Image} {o : Object}
    (h : (Object.parse image).1 = .ok o) :
    (∀ bytes, o.buildId? = some bytes ↔
      ∃ p n, o.IsFirstNote Note.IdentifiesBuild p n ∧ n.descriptor.toList = bytes) ∧
    (o.buildId? = none ↔ ∀ p n, o.HasNote p n → ¬n.IdentifiesBuild) ∧
    (∀ i k n, o.HasNote ⟨.inSection i, k⟩ n → n.IdentifiesBuild →
      ∀ p m, o.IsFirstNote Note.IdentifiesBuild p m → ∃ j ≤ i, p.owner = .inSection j) ∧
    (∀ p n, o.HasNote p n → ∃ offset length, o.Declares p.owner offset length ∧
      n.StandsIn image o.header.order offset length p.position) ∧
    (∀ path, o.interpreter? = some path ↔
      ∃ i s, IsFirst o.segments.segments.toList Segment.HasPath i s ∧ s.Names image path) ∧
    (o.interpreter? = none ↔ ∀ s ∈ o.segments.segments, ¬s.HasPath) := by
  refine ⟨fun _ => Object.buildId?_eq_some_iff, Object.buildId?_eq_none_iff, ?_,
    fun _ _ => Object.standsIn_of_hasNote h, fun _ => Object.interpreter?_eq_some_iff h,
    Object.interpreter?_eq_none_iff h⟩
  rintro i k n hn hid ⟨j | j, position⟩ m hfirst
  · refine ⟨j, Nat.le_of_not_lt fun hlt => ?_, rfl⟩
    exact hfirst.before _ _ (.inl (.sections hlt)) hn hid
  · exact absurd hid (hfirst.before _ _ (.inl .across) hn)

/-- A file with two sections of notes and a segment of notes. Those of the first section cannot be
decoded; the second section has a note of another type and, with its padding cut off, one that
identifies the build, as the segment does. Of two segments with an interpreter, the first is
empty. -/
def annotated : Image :=
  let header : FileHeader :=
    { ident := { elfClass := .elf32, encoding := .lsb, version := 1, osAbi := 0, abiVersion := 0 }
      type := 1, machine := 3, version := 1, entry := 0, programOffset := 52, sectionOffset := 148
      flags := 0, headerSize := 52, programEntrySize := 32, programCount := 3
      sectionEntrySize := 40, sectionCount := 2, nameIndex := 0 }
  let notes : ProgramHeader :=
    { type := 4, flags := 0, offset := 274, virtualAddress := 0, physicalAddress := 0
      fileSize := 17, memorySize := 0, alignment := 0 }
  let broken : SectionHeader :=
    { name := 0, type := 7, flags := 0, address := 0, offset := 228, size := 12, link := 0
      info := 0, alignment := 0, entrySize := 0 }
  let note (descriptorSize type : UInt32) : List UInt8 :=
    NoteHeader.encode .little ⟨4, descriptorSize, type⟩ ++ [0x47, 0x4e, 0x55, 0]
  let bytes := header.encode (List.replicate 7 0) ++ notes.encode .little .elf32 ++
    { notes with type := 3, fileSize := 0 : ProgramHeader }.encode .little .elf32 ++
    { notes with type := 3, offset := 291, fileSize := 3 : ProgramHeader }.encode .little .elf32 ++
    broken.encode .little .elf32 ++
    { broken with offset := 240, size := 34 : SectionHeader }.encode .little .elf32 ++
    NoteHeader.encode .little ⟨255, 0, 3⟩ ++ note 0 1 ++ note 2 3 ++ [1, 2] ++ note 1 3 ++ [9] ++
    [0x6c, 0x64, 0]
  { bytes := ⟨bytes.toArray⟩ }

theorem first_buildId_and_interpreter_annotated :
    ∃ o n, (Object.parse annotated).1 = .ok o ∧
      o.IsFirstNote Note.IdentifiesBuild ⟨.inSection 1, 1⟩ n ∧ o.buildId? = some [1, 2] ∧
      ∃ i s, IsFirst o.segments.segments.toList Segment.HasPath i s ∧ s.Names annotated "ld" := by
  have hp := (Object.parse_eq (show annotated.fixedOrder = none from rfl)
    (by decide +kernel)).trans (Guard.protect_eq_ok_iff.2 ⟨by decide +kernel, rfl⟩)
  obtain ⟨o, ho, hbroken, hnotes, hpath⟩ : ∃ o, (Object.parse annotated).1 = .ok o ∧
      o.noteTableAt? (.inSection 0) = none ∧
      (o.noteTableAt? (.inSection 1)).map (·.notes.map fun n =>
        (n.name, n.type, n.descriptor.toList)) = some [("GNU", 1, []), ("GNU", 3, [1, 2])] ∧
      o.interpreter? = some "ld" :=
    ⟨_, hp, by decide +kernel⟩
  obtain ⟨hid, -, -, -, hinterpreter, -⟩ := first_buildId_and_interpreter ho
  obtain ⟨table, htable, hlist⟩ := Option.map_eq_some_iff.1 hnotes
  obtain ⟨other, notes, hl, hother, hlist⟩ := List.map_eq_cons_iff.1 hlist
  obtain ⟨n, notes, rfl, hn, hlist⟩ := List.map_eq_cons_iff.1 hlist
  simp only [Prod.mk.injEq] at hother hn
  obtain ⟨hname, htype, hdescriptor⟩ := hn
  have hfirst : o.IsFirstNote Note.IdentifiesBuild ⟨.inSection 1, 1⟩ n := by
    refine Object.isFirstNote_iff.2 ⟨?_, table, Object.noteTableAt?_eq_some_iff.1 htable,
      by rw [hl]; rfl, ⟨hname, htype⟩, fun k hk m hm hid => ?_⟩
    · rintro w hw k m ⟨table, hc, -⟩
      cases hw with
      | @sections i _ lt =>
        obtain rfl : i = 0 := by omega
        rw [Object.noteTableAt?_eq_some_iff.2 hc] at hbroken
        cases hbroken
    · obtain rfl : k = 0 := Nat.lt_one_iff.1 hk
      rw [hl] at hm
      obtain rfl := Option.some.inj hm
      exact absurd (hother.2.1.symm.trans hid.2) (by decide)
  exact ⟨o, n, ho, hfirst, (hid _).2 ⟨_, n, hfirst, hdescriptor⟩, (hinterpreter _).1 hpath⟩

end ElfFormat
