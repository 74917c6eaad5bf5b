import ElfFormat.Note
import ElfFormat.Proofs.Layout
import ElfFormat.Proofs.Window

/-!
# The grammar of notes

A note region is a list of records and a tail that is too short for a header. `NoteRegion` says so
without reading anything, and the records are read exactly from the regions (`parse_eq_ok_iff`): the
cursor stands at a start of a record throughout, and where it stands next is where the record ends,
with its padding clamped to the region (`fillsTo_iff`). A header that begins no record is refused
for one of three reasons (`NoteHeader.readNote_eq_error_iff`).
-/

namespace ElfFormat

/-- The padding behind `position` is complete, or it is cut off with nothing behind it. -/
def FillsTo (position : Nat) (pad rest : List UInt8) : Prop :=
  position + pad.length = roundUp position NoteHeader.padding ∨
    position + pad.length < roundUp position NoteHeader.padding ∧ rest = []

theorem fillsTo_iff {position : Nat} {pad rest : List UInt8} :
    FillsTo position pad rest ↔
      position + pad.length =
        min (roundUp position NoteHeader.padding) (position + (pad.length + rest.length)) := by
  unfold FillsTo
  rw [← List.length_eq_zero_iff]
  omega

theorem fillsTo_iff_of_drop {l pad rest : List UInt8} {position : Nat}
    (h : l.drop position = pad ++ rest) (hp : position ≤ l.length) :
    FillsTo position pad rest ↔
      position + pad.length = min (roundUp position NoteHeader.padding) l.length := by
  rw [fillsTo_iff, ← List.length_append, ← h, List.length_drop, Nat.add_sub_cancel' hp]

/-- Where the padding ends does not depend on what the bytes are. -/
theorem FillsTo.append_inj {position : Nat} {pad pad' rest rest' : List UInt8}
    (h : FillsTo position pad rest) (h' : FillsTo position pad' rest')
    (e : pad ++ rest = pad' ++ rest') : pad = pad' ∧ rest = rest' := by
  have hl := congrArg List.length e
  rw [List.length_append, List.length_append] at hl
  rw [fillsTo_iff] at h h'
  rw [hl] at h
  exact List.append_inj e (by omega)

/-- The bytes of a note, cut up. -/
@[ext]
structure NoteRecord where
  type : UInt32
  name : List UInt8
  namePadding : List UInt8
  descriptor : List UInt8
  descriptorPadding : List UInt8
  /-- The text of the name, which ends at a NUL. -/
  owner : String
  encode_owner : Utf8.encode owner = name.takeWhile (· ≠ 0)
  name_lt : name.length < 2 ^ 32
  descriptor_lt : descriptor.length < 2 ^ 32

namespace NoteRecord

variable {order : ByteOrder} {start : Nat} {rest : List UInt8}

/-- The header in front of the record. -/
def header (r : NoteRecord) : NoteHeader where
  nameSize := .ofNat r.name.length
  descriptorSize := .ofNat r.descriptor.length
  type := r.type

/-- The record in bytes. -/
def bytes (r : NoteRecord) (order : ByteOrder) : List UInt8 :=
  r.header.encode order ++
    (r.name ++ (r.namePadding ++ (r.descriptor ++ r.descriptorPadding)))

/-- Where the descriptor stands in the record. -/
def descriptorPosition (r : NoteRecord) : Nat :=
  NoteHeader.size + r.name.length + r.namePadding.length

/-- The size of the record with both paddings. -/
def size (r : NoteRecord) : Nat :=
  r.descriptorPosition + r.descriptor.length + r.descriptorPadding.length

/-- The paddings are those of a record at `start` with `rest` behind it. -/
def Aligned (r : NoteRecord) (start : Nat) (rest : List UInt8) : Prop :=
  FillsTo (start + NoteHeader.size + r.name.length) r.namePadding
      (r.descriptor ++ (r.descriptorPadding ++ rest)) ∧
    FillsTo (start + r.descriptorPosition + r.descriptor.length) r.descriptorPadding rest

/-- What is read from the record at `start` of a region. -/
def note (r : NoteRecord) (region : View) (start : Nat) : Note where
  name := r.owner
  type := r.type
  descriptor := .ofList (region.offset + (start + r.descriptorPosition)) r.descriptor region.order
  offset := start

/-- What is read from records that stand one behind the other. -/
def notes (region : View) (start : Nat) : List NoteRecord → List Note
  | [] => []
  | r :: records => r.note region start :: notes region (start + r.size) records

end NoteRecord

/-- The bytes of a region from a position on: records one behind the other, and a tail. -/
inductive NoteRegion (order : ByteOrder) :
    Nat → List UInt8 → List NoteRecord → List UInt8 → Prop where
  | tail {start : Nat} {tail : List UInt8} (short : tail.length < NoteHeader.size) :
    NoteRegion order start tail [] tail
  | record {start : Nat} {r : NoteRecord} {rest : List UInt8} {records : List NoteRecord}
    {tail : List UInt8} (aligned : r.Aligned start rest)
    (behind : NoteRegion order (start + r.size) rest records tail) :
    NoteRegion order start (r.bytes order ++ rest) (r :: records) tail

namespace NoteHeader

variable {order : ByteOrder}

@[simp]
theorem length_encode (h : NoteHeader) : (h.encode order).length = size := by
  simp [encode, ByteOrder.u32, size]

theorem encode_injective {h k : NoteHeader} (e : h.encode order = k.encode order) : h = k := by
  have hu : ∀ {x y : UInt32}, order.u32 x = order.u32 y → x = y := by
    intro x y hxy
    have hv := congrArg order.value hxy
    unfold ByteOrder.u32 at hv
    rw [order.value_encode x.toNat_lt, order.value_encode y.toNat_lt] at hv
    exact UInt32.toNat_inj.1 hv
  unfold encode at e
  obtain ⟨e, ht⟩ := List.append_inj e (by simp [ByteOrder.u32])
  obtain ⟨hn, hd⟩ := List.append_inj e (by simp [ByteOrder.u32])
  obtain ⟨n, d, t⟩ := h
  obtain ⟨n', d', t'⟩ := k
  rw [show n = n' from hu hn, show d = d' from hu hd, show t = t' from hu ht]

/-- The header of a note that is looked up at its place. -/
def ofView (v : View) (start : Nat) : NoteHeader where
  nameSize := v.u32At start
  descriptorSize := v.u32At (start + 4)
  type := v.u32At (start + 4 + 4)

theorem run_fields {v : View} {start : Nat} (fits : start + size ≤ v.length) :
    fields.run v start = .ok (.ofView v start) := by
  have hs : size = 12 := rfl
  simp (disch := omega) only [FieldReader.run, fields, FieldReader.bind_apply,
    FieldReader.u32_of_le]
  rfl

theorem encode_ofView {v : View} {start : Nat} (fits : start + size ≤ v.length) :
    encode v.order (.ofView v start) = (v.toList.drop start).take size := by
  have hs : size = 12 := rfl
  unfold encode ofView
  rw [View.u32_u32At (by omega), View.u32_u32At (by omega), View.u32_u32At (by omega),
    View.bytesAt_append v rfl, View.bytesAt_append v (Nat.add_assoc start 4 4).symm, hs]
  rfl

theorem run_fields_eq_ok_iff {v : View} {start : Nat} (fits : start + size ≤ v.length)
    {h : NoteHeader} :
    fields.run v start = .ok h ↔ h.encode v.order = (v.toList.drop start).take size := by
  rw [run_fields fits, ← encode_ofView fits, Except.ok.injEq]
  exact ⟨fun e => e ▸ rfl, fun e => (encode_injective e).symm⟩

end NoteHeader

namespace NoteRecord

variable {order : ByteOrder} {start : Nat} {rest : List UInt8}

@[simp]
theorem length_bytes (r : NoteRecord) : (r.bytes order).length = r.size := by
  unfold bytes size descriptorPosition
  simp only [List.length_append, NoteHeader.length_encode]
  omega

theorem size_le (r : NoteRecord) : NoteHeader.size ≤ r.size := by
  rw [size, descriptorPosition]
  omega

theorem toNat_nameSize (r : NoteRecord) : r.header.nameSize.toNat = r.name.length :=
  UInt32.toNat_ofNat_of_lt' r.name_lt

theorem toNat_descriptorSize (r : NoteRecord) :
    r.header.descriptorSize.toNat = r.descriptor.length :=
  UInt32.toNat_ofNat_of_lt' r.descriptor_lt

/-- The clamped cursor of the reader stands at the descriptor of an aligned record, and then behind
the record. -/
theorem Aligned.cursors {r : NoteRecord} (h : r.Aligned start rest) {length : Nat}
    (hl : length = start + r.size + rest.length) :
    r.header.descriptorStart start length = start + r.descriptorPosition ∧
      r.header.next start length = start + r.size := by
  obtain ⟨hn, hd⟩ := h
  rw [fillsTo_iff] at hn hd
  simp only [List.length_append] at hn
  have hs : r.header.descriptorStart start length = start + r.descriptorPosition := by
    rw [NoteHeader.descriptorStart, toNat_nameSize, hl, size]
    rw [descriptorPosition] at *
    rw [show start + (NoteHeader.size + r.name.length + r.namePadding.length) =
      start + NoteHeader.size + r.name.length + r.namePadding.length by omega, hn]
    congr 1
    omega
  refine ⟨hs, ?_⟩
  rw [NoteHeader.next, hs, toNat_descriptorSize, hl, size,
    show start + (r.descriptorPosition + r.descriptor.length + r.descriptorPadding.length) =
      start + r.descriptorPosition + r.descriptor.length + r.descriptorPadding.length by omega, hd]
  congr 1
  omega

end NoteRecord

namespace NoteHeader

variable {v : View} {start : Nat} {h : NoteHeader} {e : Error}

theorem readName_eq_ok_iff (fits : start + size + h.nameSize.toNat ≤ v.length) {s : String} :
    h.readName v start = .ok s ↔
      Utf8.encode s = ((v.toList.drop (start + size)).take h.nameSize.toNat).takeWhile (· ≠ 0) := by
  unfold readName
  by_cases hz : h.nameSize = 0
  · rw [if_pos hz, hz]
    show .ok "" = Except.ok s ↔ Utf8.encode s = []
    rw [Except.ok.injEq, ← Utf8.decode?_eq_some_iff, show Utf8.decode? [] = some "" from
      Utf8.decode?_encode "", Option.some.injEq]
  · have hp : h.nameSize.toNat ≠ 0 := fun e => hz (UInt32.toNat_inj.1 e)
    rw [if_neg hz, View.text_eq_ok_iff]
    exact ⟨fun he => he.2.symm, fun he => ⟨by omega, he.symm⟩⟩

/-- A note is read if both of its parts fit and its name is a text. -/
theorem readNote_eq_ok_iff {note : Note} (fits : start + size ≤ v.length) :
    h.readNote v start = .ok note ↔
      start + size + h.nameSize.toNat ≤ v.length ∧
        h.descriptorStart start v.length + h.descriptorSize.toNat ≤ v.length ∧
        ∃ s, Utf8.encode s =
            ((v.toList.drop (start + size)).take h.nameSize.toNat).takeWhile (· ≠ 0) ∧
          note = { name := s, type := h.type, offset := start
                   descriptor := v.window (h.descriptorStart start v.length)
                     h.descriptorSize.toNat } := by
  have hmin : h.descriptorStart start v.length ≤ v.length := Nat.min_le_right _ _
  unfold readNote
  by_cases hn : v.length - (start + size) < h.nameSize.toNat
  · rw [if_pos hn]
    exact ⟨nofun, fun ⟨hle, _⟩ => absurd hle (by omega)⟩
  have hle : start + size + h.nameSize.toNat ≤ v.length := by omega
  rw [if_neg hn, bind_eq_ok_iff]
  simp only [readName_eq_ok_iff hle]
  by_cases hd : v.length - h.descriptorStart start v.length < h.descriptorSize.toNat
  · simp only [if_pos hd]
    exact ⟨fun ⟨_, _, e⟩ => absurd e nofun, fun ⟨_, hle, _⟩ => absurd hle (by omega)⟩
  · have hle' : h.descriptorStart start v.length + h.descriptorSize.toNat ≤ v.length := by omega
    simp only [if_neg hd, View.subview_eq_window hle']
    refine ⟨?_, ?_⟩
    · rintro ⟨s, hs, e⟩
      exact ⟨hle, hle', s, hs, (Except.ok.inj e).symm⟩
    · rintro ⟨-, -, s, hs, rfl⟩
      exact ⟨s, hs, rfl⟩

/-- The bytes of the name, without a NUL and what follows it. -/
def ownerBytes (h : NoteHeader) (v : View) (start : Nat) : List UInt8 :=
  ((v.toList.drop (start + size)).take h.nameSize.toNat).takeWhile (· ≠ 0)

/-- Why a header at `start` begins no record. -/
inductive Refuses (h : NoteHeader) (v : View) (start : Nat) : Error → Prop where
  | name (large : v.length - (start + size) < h.nameSize.toNat) :
    Refuses h v start (.malformedNote (v.offset + start)
      (NoteFault.name h.nameSize.toNat (v.length - (start + size))).message)
  | owner (fits : h.nameSize.toNat ≤ v.length - (start + size)) (named : 0 < h.nameSize.toNat)
    (invalid : ∀ s, Utf8.encode s ≠ h.ownerBytes v start) :
    Refuses h v start (.invalidString (v.offset + (start + size)))
  | descriptor (fits : h.nameSize.toNat ≤ v.length - (start + size)) {s : String}
    (valid : Utf8.encode s = h.ownerBytes v start)
    (large : v.length - h.descriptorStart start v.length < h.descriptorSize.toNat) :
    Refuses h v start (.malformedNote (v.offset + start)
      (NoteFault.descriptor h.descriptorSize.toNat
        (v.length - h.descriptorStart start v.length)).message)

theorem readName_eq_error (fits : start + size + h.nameSize.toNat ≤ v.length)
    (he : h.readName v start = .error e) :
    start + size < v.length ∧ e = .invalidString (v.offset + (start + size)) := by
  unfold readName at he
  split at he
  · cases he
  · next hz =>
    have hp : h.nameSize.toNat ≠ 0 := fun e => hz (UInt32.toNat_inj.1 e)
    have hlt : ¬v.length ≤ start + size := by omega
    rw [View.text_eq, if_neg hlt] at he
    split at he
    · cases he
    · exact ⟨Nat.not_le.1 hlt, (Except.error.inj he).symm⟩

/-- The checks come in the order of the reasons, so there is one reason at most. -/
theorem readNote_eq_error_iff (fits : start + size ≤ v.length) :
    h.readNote v start = .error e ↔ h.Refuses v start e := by
  have hmin : h.descriptorStart start v.length ≤ v.length := Nat.min_le_right _ _
  constructor
  · intro he
    unfold readNote at he
    by_cases hn : v.length - (start + size) < h.nameSize.toNat
    · rw [if_pos hn] at he
      obtain rfl := Except.error.inj he
      exact .name hn
    have hle : start + size + h.nameSize.toNat ≤ v.length := by omega
    rw [if_neg hn, bind_eq_error_iff] at he
    rcases he with hname | ⟨s, hs, he⟩
    · obtain ⟨hlt, rfl⟩ := readName_eq_error hle hname
      have hinvalid : ∀ s, Utf8.encode s ≠ h.ownerBytes v start := fun s hs => by
        have hok := (readName_eq_ok_iff hle).2 hs
        rw [hname] at hok
        cases hok
      refine .owner (by omega) (Nat.pos_of_ne_zero fun hz => ?_) hinvalid
      exact hinvalid "" (by rw [ownerBytes, hz]; rfl)
    by_cases hd : v.length - h.descriptorStart start v.length < h.descriptorSize.toNat
    · simp only [if_pos hd] at he
      obtain rfl := Except.error.inj he
      exact .descriptor (by omega) ((readName_eq_ok_iff hle).1 hs) hd
    · simp only [if_neg hd, View.subview_eq_window (show h.descriptorStart start v.length +
        h.descriptorSize.toNat ≤ v.length by omega)] at he
      cases he
  · rintro (hn | ⟨hn, hp, hinvalid⟩ | ⟨hn, hs, hd⟩)
    · exact if_pos hn
    · have hle : start + size + h.nameSize.toNat ≤ v.length := by omega
      unfold readNote
      rw [if_neg (Nat.not_lt.2 hn)]
      rcases hname : h.readName v start with e | s
      · obtain ⟨-, rfl⟩ := readName_eq_error hle hname
        rfl
      · exact absurd ((readName_eq_ok_iff hle).1 hname) (hinvalid s)
    · have hle : start + size + h.nameSize.toNat ≤ v.length := by omega
      unfold readNote
      rw [if_neg (Nat.not_lt.2 hn), (readName_eq_ok_iff hle).2 hs]
      exact if_pos hd

end NoteHeader

/-- The part of a list from one position to the next. -/
def between {α : Type} (l : List α) (a b : Nat) : List α :=
  (l.drop a).take (b - a)

theorem length_between {α : Type} {l : List α} {a b : Nat} (hb : b ≤ l.length) :
    (between l a b).length = b - a := by
  rw [between, List.length_take, List.length_drop]
  omega

theorem between_append_drop {α : Type} (l : List α) {a b : Nat} (hab : a ≤ b) :
    l.drop a = between l a b ++ l.drop b := by
  have h := List.take_append_drop (b - a) (l.drop a)
  rw [List.drop_drop, Nat.add_sub_cancel' hab] at h
  exact h.symm

theorem drop_add_length {α : Type} {l a b : List α} {p : Nat} (h : l.drop p = a ++ b) :
    l.drop (p + a.length) = b := by
  rw [← List.drop_drop, h, List.drop_left]

namespace NoteRecord

variable {v : View} {start : Nat} {rest : List UInt8}

/-- The reader reads an aligned record and goes on behind it. -/
theorem read_of_aligned {r : NoteRecord} (h : r.Aligned start rest)
    (hd : v.toList.drop start = r.bytes v.order ++ rest) :
    start + NoteHeader.size ≤ v.length ∧ NoteHeader.fields.run v start = .ok r.header ∧
      r.header.readNote v start = .ok (r.note v start) ∧
      r.header.next start v.length = start + r.size := by
  have hl := congrArg List.length hd
  simp only [List.length_drop, View.length_toList, List.length_append, length_bytes] at hl
  have hp : r.size = r.descriptorPosition + r.descriptor.length + r.descriptorPadding.length := rfl
  have hq : r.descriptorPosition = NoteHeader.size + r.name.length + r.namePadding.length := rfl
  have hs : NoteHeader.size = 12 := rfl
  have hlen : v.length = start + r.size + rest.length := by omega
  obtain ⟨hcur, hnext⟩ := h.cursors hlen
  rw [bytes, List.append_assoc] at hd
  have hname := drop_add_length hd
  rw [NoteHeader.length_encode, List.append_assoc] at hname
  have hdesc := drop_add_length hname
  rw [List.append_assoc] at hdesc
  have hdesc := drop_add_length hdesc
  rw [List.append_assoc] at hdesc
  refine ⟨by omega, ?_, ?_, hnext⟩
  · rw [NoteHeader.run_fields_eq_ok_iff (by omega), hd, List.take_left' (by simp)]
  · rw [NoteHeader.readNote_eq_ok_iff (by omega), hcur, toNat_nameSize, toNat_descriptorSize]
    refine ⟨by omega, by omega, r.owner, ?_, ?_⟩
    · rw [hname, List.take_left, r.encode_owner]
    · have hw : v.window (start + r.descriptorPosition) r.descriptor.length =
          (r.note v start).descriptor := by
        refine View.ext_toList rfl ?_ rfl
        rw [View.toList_window, descriptorPosition, ← Nat.add_assoc, ← Nat.add_assoc, hdesc,
          List.take_left]
        exact (View.toList_ofList ..).symm
      rw [hw]
      rfl

/-- Where the parts of a record stand that was read at `start`: behind the name comes `pad`, and
behind the descriptor `dpad`. -/
structure Cuts (length start pad desc dpad stop : Nat) : Prop where
  header_le : start + NoteHeader.size ≤ pad
  pad_le : pad ≤ length
  desc_eq : desc = min (roundUp pad NoteHeader.padding) length
  desc_le : desc ≤ dpad
  dpad_le : dpad ≤ length
  stop_eq : stop = min (roundUp dpad NoteHeader.padding) length

/-- The record whose parts stand between these positions. -/
def cut (l : List UInt8) (type : UInt32) (owner : String) (name pad desc dpad stop : Nat)
    (ho : Utf8.encode owner = (between l name pad).takeWhile (· ≠ 0))
    (hn : pad - name < 2 ^ 32) (hd : dpad - desc < 2 ^ 32) : NoteRecord where
  type := type
  name := between l name pad
  namePadding := between l pad desc
  descriptor := between l desc dpad
  descriptorPadding := between l dpad stop
  owner := owner
  encode_owner := ho
  name_lt := Nat.lt_of_le_of_lt (List.length_take_le _ _) hn
  descriptor_lt := Nat.lt_of_le_of_lt (List.length_take_le _ _) hd

/-- The cursor never goes back and never leaves the region. -/
theorem Cuts.monotone {length pad desc dpad stop : Nat} (c : Cuts length start pad desc dpad stop) :
    pad ≤ desc ∧ desc ≤ length ∧ dpad ≤ stop ∧ stop ≤ length := by
  obtain ⟨-, hp, rfl, -, hd, rfl⟩ := c
  have h1 := le_roundUp pad NoteHeader.padding
  have h2 := le_roundUp dpad NoteHeader.padding
  omega

/-- What is cut out at the positions of the reader is a record with its paddings. -/
theorem exists_cut {l : List UInt8} {type : UInt32} {owner : String} {pad desc dpad stop : Nat}
    (c : Cuts l.length start pad desc dpad stop)
    (ho : Utf8.encode owner = (between l (start + NoteHeader.size) pad).takeWhile (· ≠ 0))
    (hn : pad - (start + NoteHeader.size) < 2 ^ 32) (hd : dpad - desc < 2 ^ 32) :
    ∃ r : NoteRecord, r.type = type ∧ r.name.length = pad - (start + NoteHeader.size) ∧
      r.descriptor.length = dpad - desc ∧ r.Aligned start (l.drop (start + r.size)) ∧
        l.drop (start + NoteHeader.size) =
          r.name ++ (r.namePadding ++ (r.descriptor ++
            (r.descriptorPadding ++ l.drop (start + r.size)))) := by
  let r := cut l type owner (start + NoteHeader.size) pad desc dpad stop ho hn hd
  obtain ⟨h1, h2, h3, h4⟩ := c.monotone
  obtain ⟨hp, hpl, hdesc, hle, hdl, hstop⟩ := c
  have hname : r.name.length = pad - (start + NoteHeader.size) := length_between hpl
  have hpad : r.namePadding.length = desc - pad := length_between h2
  have hlen : r.descriptor.length = dpad - desc := length_between hdl
  have hdpad : r.descriptorPadding.length = stop - dpad := length_between h4
  have hpos : start + r.descriptorPosition = desc := by
    rw [descriptorPosition, hname, hpad]
    omega
  have hsize : start + r.size = stop := by
    rw [size, hlen, hdpad]
    omega
  have hdcut : l.drop dpad = r.descriptorPadding ++ l.drop stop := between_append_drop l h3
  have hcut : l.drop pad =
      r.namePadding ++ (r.descriptor ++ (r.descriptorPadding ++ l.drop stop)) := by
    rw [between_append_drop l h1, between_append_drop l hle, hdcut]
    rfl
  refine ⟨r, rfl, hname, hlen, ?_⟩
  rw [hsize]
  refine ⟨⟨?_, ?_⟩, ?_⟩
  · rw [hname, Nat.add_sub_cancel' hp, fillsTo_iff_of_drop hcut hpl, hpad, ← hdesc,
      Nat.add_sub_cancel' h1]
  · rw [hpos, hlen, Nat.add_sub_cancel' hle, fillsTo_iff_of_drop hdcut hdl, hdpad, ← hstop,
      Nat.add_sub_cancel' h3]
  · rw [between_append_drop l hp, hcut]
    rfl

/-- A record that is read has its paddings where the cursor was clamped. -/
theorem exists_aligned {h : NoteHeader} {note : Note} (fits : start + NoteHeader.size ≤ v.length)
    (hrun : NoteHeader.fields.run v start = .ok h) (hread : h.readNote v start = .ok note) :
    ∃ r : NoteRecord, r.Aligned start (v.toList.drop (start + r.size)) ∧
      v.toList.drop start = r.bytes v.order ++ v.toList.drop (start + r.size) := by
  obtain ⟨hn, hd, owner, ho, -⟩ := (NoteHeader.readNote_eq_ok_iff fits).1 hread
  have henc := (NoteHeader.run_fields_eq_ok_iff fits).1 hrun
  have hpad : start + NoteHeader.size + h.nameSize.toNat - (start + NoteHeader.size) =
      h.nameSize.toNat := Nat.add_sub_cancel_left ..
  have hdpad : h.descriptorStart start v.length + h.descriptorSize.toNat -
      h.descriptorStart start v.length = h.descriptorSize.toNat := Nat.add_sub_cancel_left ..
  have hcuts : Cuts v.toList.length start (start + NoteHeader.size + h.nameSize.toNat)
      (h.descriptorStart start v.length)
      (h.descriptorStart start v.length + h.descriptorSize.toNat) (h.next start v.length) := by
    rw [View.length_toList]
    exact ⟨Nat.le_add_right .., hn, rfl, Nat.le_add_right .., hd, rfl⟩
  obtain ⟨r, htype, hname, hdesc, haligned, hdrop⟩ := @exists_cut start v.toList h.type owner _ _ _
    _ hcuts (by rw [between, hpad]; exact ho) (by rw [hpad]; exact h.nameSize.toNat_lt)
    (by rw [hdpad]; exact h.descriptorSize.toNat_lt)
  have hheader : r.header = h := by
    rw [header, htype, hname, hdesc, hpad, hdpad, UInt32.ofNat_toNat, UInt32.ofNat_toNat]
  refine ⟨r, haligned, ?_⟩
  have hfront := between_append_drop v.toList (Nat.le_add_right start NoteHeader.size)
  rw [between, Nat.add_sub_cancel_left, ← henc, hdrop] at hfront
  rw [bytes, hheader]
  simpa only [List.append_assoc] using hfront

/-- The bytes of a record say how it is cut up. -/
theorem eq_of_append {r r' : NoteRecord} {order : ByteOrder} {rest' : List UInt8}
    (h : r.Aligned start rest) (h' : r'.Aligned start rest')
    (e : r.bytes order ++ rest = r'.bytes order ++ rest') : r = r' ∧ rest = rest' := by
  obtain ⟨hn, hd⟩ := h
  obtain ⟨hn', hd'⟩ := h'
  simp only [bytes, List.append_assoc] at e
  obtain ⟨hh, e⟩ := List.append_inj e (by simp)
  have hh := NoteHeader.encode_injective hh
  have hnl := congrArg (·.nameSize.toNat) hh
  have hdl := congrArg (·.descriptorSize.toNat) hh
  simp only [toNat_nameSize, toNat_descriptorSize] at hnl hdl
  obtain ⟨hname, e⟩ := List.append_inj e hnl
  rw [hnl] at hn
  obtain ⟨hpad, e⟩ := hn.append_inj hn' e
  obtain ⟨hdesc, e⟩ := List.append_inj e hdl
  rw [descriptorPosition, hnl, hpad, hdl] at hd
  obtain ⟨hdpad, e⟩ := hd.append_inj hd' e
  have howner : r.owner = r'.owner := by
    refine Utf8.encode_injective ?_
    rw [r.encode_owner, r'.encode_owner, hname]
  exact ⟨NoteRecord.ext (congrArg NoteHeader.type hh) hname hpad hdesc hdpad howner, e⟩

end NoteRecord

namespace NoteRegion

variable {order : ByteOrder} {start : Nat} {bytes tail tail' : List UInt8}
  {records records' : List NoteRecord}

/-- A region is cut up in one way, by induction on the records. -/
theorem unique (h : NoteRegion order start bytes records tail)
    (h' : NoteRegion order start bytes records' tail') : records = records' ∧ tail = tail' := by
  induction h generalizing records' with
  | tail short =>
    cases h' with
    | tail => exact ⟨rfl, rfl⟩
    | @record _ r rest =>
      rw [List.length_append, NoteRecord.length_bytes] at short
      have : NoteHeader.size ≤ r.size := r.size_le
      omega
  | @record start r rest records tail aligned behind ih =>
    -- A tail is shorter than any record, so both ways of cutting go on together.
    generalize hb : r.bytes order ++ rest = bytes at h'
    cases h' with
    | tail short =>
      rw [← hb, List.length_append, NoteRecord.length_bytes] at short
      have : NoteHeader.size ≤ r.size := r.size_le
      omega
    | record aligned' behind' =>
      obtain ⟨rfl, rfl⟩ := NoteRecord.eq_of_append aligned aligned' hb
      obtain ⟨rfl, rfl⟩ := ih behind'
      exact ⟨rfl, rfl⟩

end NoteRegion

namespace Note

variable {v : View}

theorem short_iff (start : Nat) :
    (v.toList.drop start).length < NoteHeader.size ↔ ¬start + NoteHeader.size ≤ v.length := by
  have hs : NoteHeader.size = 12 := rfl
  rw [List.length_drop, View.length_toList]
  omega

/-- The reader follows the records of a region, by induction on them. -/
theorem readFrom_of_region {start : Nat} {bytes tail : List UInt8} {records : List NoteRecord}
    (h : NoteRegion v.order start bytes records tail) (hb : v.toList.drop start = bytes) :
    readFrom v start = .ok (NoteRecord.notes v start records) := by
  induction h with
  | tail short =>
    rw [← hb, short_iff] at short
    rw [readFrom, dif_neg short]
    rfl
  | @record start r rest records tail aligned behind ih =>
    obtain ⟨fits, hrun, hread, hnext⟩ := NoteRecord.read_of_aligned aligned hb
    have hrest := drop_add_length hb
    rw [NoteRecord.length_bytes] at hrest
    rw [readFrom, dif_pos fits, bind_eq_ok_iff]
    refine ⟨_, hrun, bind_eq_ok_iff.2 ⟨_, hread, bind_eq_ok_iff.2 ⟨_, ?_, rfl⟩⟩⟩
    rw [hnext, ih hrest]

/-- What the reader has passed is a region, by induction on what is left. -/
theorem exists_region_of_readFrom (start : Nat) {notes : List Note}
    (h : readFrom v start = .ok notes) :
    ∃ records tail, NoteRegion v.order start (v.toList.drop start) records tail ∧
      notes = NoteRecord.notes v start records := by
  rw [readFrom] at h
  by_cases fits : start + NoteHeader.size ≤ v.length
  · rw [dif_pos fits] at h
    obtain ⟨header, hrun, h⟩ := bind_eq_ok_iff.1 h
    obtain ⟨note, hread, h⟩ := bind_eq_ok_iff.1 h
    obtain ⟨rest, hrest, h⟩ := bind_eq_ok_iff.1 h
    obtain ⟨r, hr, hd⟩ := NoteRecord.exists_aligned fits hrun hread
    obtain ⟨-, hrun', hread', hnext⟩ := NoteRecord.read_of_aligned hr hd
    obtain rfl := Except.ok.inj (hrun.symm.trans hrun')
    obtain rfl := Except.ok.inj (hread.symm.trans hread')
    -- The cursor has moved by the whole record, so the rest is a region from there on.
    rw [hnext] at hrest
    have hsize := r.size_le
    obtain ⟨records, tail, hregion, rfl⟩ := exists_region_of_readFrom (start + r.size) hrest
    rw [hd]
    exact ⟨r :: records, tail, .record hr hregion, (Except.ok.inj h).symm⟩
  · rw [dif_neg fits] at h
    exact ⟨[], _, .tail ((short_iff start).2 fits), (Except.ok.inj h).symm⟩
termination_by v.length - start
decreasing_by
  have hs : NoteHeader.size = 12 := rfl
  omega

end Note

namespace NoteRecord

/-- The complete padding behind a position. -/
def zeros (position : Nat) : List UInt8 :=
  List.replicate (roundUp position NoteHeader.padding - position) 0

/-- The record with its paddings written out as zeros, at a multiple of 4. -/
def padded (r : NoteRecord) : NoteRecord :=
  let name := NoteHeader.size + r.name.length
  let namePadding := zeros name
  { r with
    namePadding
    descriptorPadding := zeros (name + namePadding.length + r.descriptor.length) }

theorem fillsTo_zeros {start position : Nat} (h : NoteHeader.padding ∣ start)
    (rest : List UInt8) : FillsTo (start + position) (zeros position) rest := by
  have hle := le_roundUp position NoteHeader.padding
  refine .inl ?_
  rw [roundUp_add h, zeros, List.length_replicate]
  omega

theorem padded_aligned (r : NoteRecord) {start : Nat} (h : NoteHeader.padding ∣ start)
    (rest : List UInt8) : r.padded.Aligned start rest := by
  unfold Aligned
  rw [Nat.add_assoc, Nat.add_assoc]
  exact ⟨fillsTo_zeros h _, fillsTo_zeros h _⟩

theorem dvd_size_padded (r : NoteRecord) : NoteHeader.padding ∣ r.padded.size := by
  have hf := (r.padded_aligned (Nat.dvd_zero _) [0]).2
  rcases hf with hf | ⟨-, hf⟩
  · rw [Nat.zero_add] at hf
    rw [size, hf]
    exact dvd_roundUp _ (by decide)
  · cases hf

/-- Records that are written one behind the other are cut up where they were joined. -/
theorem region_padded {order : ByteOrder} {tail : List UInt8}
    (short : tail.length < NoteHeader.size) :
    ∀ (records : List NoteRecord) {start : Nat}, NoteHeader.padding ∣ start →
      NoteRegion order start (records.flatMap (·.padded.bytes order) ++ tail)
        (records.map padded) tail
  | [], _, _ => .tail short
  | r :: records, start, h => by
    rw [List.flatMap_cons, List.append_assoc]
    exact .record (r.padded_aligned h _)
      (region_padded short records (Nat.dvd_add h r.dvd_size_padded))

end NoteRecord

namespace NoteTable

theorem parse_eq_ok_iff {v : View} {table : NoteTable} :
    parse v = .ok table ↔
      ∃ records tail, NoteRegion v.order 0 v.toList records tail ∧
        table = { view := v, notes := NoteRecord.notes v 0 records } := by
  constructor
  · intro h
    obtain ⟨notes, hn, h⟩ := bind_eq_ok_iff.1 h
    obtain ⟨records, tail, hr, rfl⟩ := Note.exists_region_of_readFrom 0 hn
    exact ⟨records, tail, hr, (Except.ok.inj h).symm⟩
  · rintro ⟨records, tail, hr, rfl⟩
    exact bind_eq_ok_iff.2 ⟨_, Note.readFrom_of_region hr rfl, rfl⟩

end NoteTable

/-- A view is read as notes exactly if it is a region, in the one way in which it is one; and notes
that were written are read back. -/
theorem notes_decode_region (v : View) :
    (∀ table, NoteTable.parse v = .ok table ↔
      ∃ records tail, NoteRegion v.order 0 v.toList records tail ∧
        table = { view := v, notes := NoteRecord.notes v 0 records }) ∧
    (∀ records tail records' tail', NoteRegion v.order 0 v.toList records tail →
      NoteRegion v.order 0 v.toList records' tail' → records = records' ∧ tail = tail') ∧
    ∀ records : List NoteRecord, v.toList = records.flatMap (·.padded.bytes v.order) →
      NoteTable.parse v =
        .ok { view := v, notes := NoteRecord.notes v 0 (records.map NoteRecord.padded) } := by
  refine ⟨fun _ => NoteTable.parse_eq_ok_iff, fun _ _ _ _ => NoteRegion.unique, ?_⟩
  intro records h
  have hr := @NoteRecord.region_padded v.order [] (by decide) records 0 (Nat.dvd_zero _)
  rw [List.append_nil, ← h] at hr
  exact NoteTable.parse_eq_ok_iff.2 ⟨_, _, hr, rfl⟩

/-- A note whose descriptor is filled up, and one whose name is filled up and whose descriptor ends
at its last byte. -/
def NoteRecord.twoNotes : List NoteRecord := [
  { type := 3, name := [0x47, 0x4e, 0x55, 0], namePadding := []
    descriptor := [1, 2], descriptorPadding := [0, 0]
    owner := "GNU", encode_owner := by decide, name_lt := by decide, descriptor_lt := by decide },
  { type := 7, name := [0x61, 0], namePadding := [0, 0]
    descriptor := [5], descriptorPadding := []
    owner := "a", encode_owner := by decide, name_lt := by decide, descriptor_lt := by decide }]

/-- The two notes as they are written, and as a region that ends before the last padding does. -/
theorem notes_decode_region_twoNotes :
    let written : View := .ofList 0 (NoteRecord.twoNotes.flatMap (·.padded.bytes .little)) .little
    let cutOff : View := .ofList 0 (NoteRecord.twoNotes.flatMap (·.bytes .little)) .little
    written.length = 40 ∧ cutOff.length = 37 ∧
      (∃ table, NoteTable.parse written = .ok table ∧
        table.notes.map (·.name) = ["GNU", "a"] ∧ table.notes.map (·.offset) = [0, 20]) ∧
      (∃ table, NoteTable.parse cutOff = .ok table ∧
        table.notes.map (·.descriptor.toList) = [[1, 2], [5]]) ∧
      ∀ records tail, NoteRegion .little 0 cutOff.toList records tail →
        records = NoteRecord.twoNotes ∧ tail = [] := by
  intro written cutOff
  have hregion : NoteRegion .little 0 cutOff.toList NoteRecord.twoNotes [] := by
    rw [View.toList_ofList]
    exact .record ⟨.inl rfl, .inl rfl⟩
      (.record ⟨.inl rfl, .inr ⟨by decide, rfl⟩⟩ (.tail (by decide)))
  obtain ⟨-, -, hwritten⟩ := notes_decode_region written
  obtain ⟨hiff, hunique, -⟩ := notes_decode_region cutOff
  refine ⟨rfl, rfl, ⟨_, hwritten _ (View.toList_ofList ..), rfl, rfl⟩,
    ⟨_, (hiff _).2 ⟨_, _, hregion, rfl⟩, ?_⟩, fun _ _ h => hunique _ _ _ _ h hregion⟩
  simp [NoteRecord.notes, NoteRecord.note, NoteRecord.twoNotes, View.toList_ofList]

end ElfFormat
