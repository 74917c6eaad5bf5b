import ElfFormat.Image
import ElfFormat.Table

/-!
# Windows as total functions

`View.window` is the range that `View.subview` gives where it gives one, so a range that is known to
fit is spoken of without a case distinction. A table that decodes is then a list of windows, one for
each record, whatever reads them (`records_eq_ok`).
-/

namespace ElfFormat

namespace View

/-- The range at `offset`, or what there is of it. -/
def window (v : View) (offset length : Nat) : View :=
  { v with offset := v.offset + offset, bytes := v.bytes.extract offset length }

/-- The range at `offset` of an image that has these bytes there. -/
def ofList (offset : Nat) (bytes : List UInt8) (order : ByteOrder) : View where
  offset := offset
  bytes := .ofArray ⟨bytes.toArray⟩
  order := order

@[simp]
theorem toList_ofList (offset : Nat) (bytes : List UInt8) (order : ByteOrder) :
    (ofList offset bytes order).toList = bytes :=
  Bytes.toList_ofArray ⟨bytes.toArray⟩

@[simp]
theorem length_ofList (offset : Nat) (bytes : List UInt8) (order : ByteOrder) :
    (ofList offset bytes order).length = bytes.length := by
  rw [← length_toList, toList_ofList]

variable {v : View}

/-- A range is cut out exactly if it lies in the view. -/
theorem subview_eq (v : View) (offset length : Nat) :
    v.subview offset length =
      if offset + length ≤ v.length then .ok (v.window offset length)
      else .error (.outOfBounds offset length v.length) :=
  rfl

theorem subview_eq_window {offset length : Nat} (h : offset + length ≤ v.length) :
    v.subview offset length = .ok (v.window offset length) :=
  if_pos h

theorem eq_window_of_subview {w : View} {offset length : Nat}
    (h : v.subview offset length = .ok w) :
    offset + length ≤ v.length ∧ w = v.window offset length := by
  rw [subview_eq] at h
  split at h
  · next hle => exact ⟨hle, (Except.ok.inj h).symm⟩
  · cases h

@[simp]
theorem toList_window (v : View) (offset length : Nat) :
    (v.window offset length).toList = (v.toList.drop offset).take length :=
  v.bytes.toList_extract offset length

theorem length_window {offset length : Nat} (h : offset + length ≤ v.length) :
    (v.window offset length).length = length :=
  length_of_subview (subview_eq_window h)

/-- A window of a window that fits is a window of the whole. -/
theorem window_window {o l p m : Nat} (h : o + l ≤ v.length) (hm : p + m ≤ l) :
    (v.window o l).window p m = v.window (o + p) m := by
  have hw := subview_subview (subview_eq_window h) hm
  rw [subview_eq_window (by rw [length_window h]; exact hm), subview_eq_window (by omega)] at hw
  exact Except.ok.inj hw

end View

theorem bind_eq_ok_iff {ε α β : Type} {x : Except ε α} {f : α → Except ε β} {b : β} :
    x >>= f = .ok b ↔ ∃ a, x = .ok a ∧ f a = .ok b := by
  rcases x with e | a
  · exact ⟨nofun, nofun⟩
  · exact ⟨fun h => ⟨a, rfl, h⟩, fun ⟨_, ha, hb⟩ => Except.ok.inj ha ▸ hb⟩

theorem bind_eq_error_iff {ε α β : Type} {x : Except ε α} {f : α → Except ε β} {e : ε} :
    x >>= f = .error e ↔ x = .error e ∨ ∃ a, x = .ok a ∧ f a = .error e := by
  rcases x with e' | a
  · refine ⟨fun h => .inl (congrArg _ (Except.error.inj h)), ?_⟩
    rintro (⟨⟨⟩⟩ | ⟨_, ⟨⟩, _⟩)
    rfl
  · refine ⟨fun h => .inr ⟨a, rfl, h⟩, ?_⟩
    rintro (⟨⟨⟩⟩ | ⟨_, ⟨⟩, h⟩)
    exact h

theorem map_eq_ok_iff {ε α β : Type} {x : Except ε α} {f : α → β} {b : β} :
    x.map f = .ok b ↔ ∃ a, x = .ok a ∧ f a = b := by
  rcases x with e | a
  · exact ⟨nofun, nofun⟩
  · refine ⟨fun h => ⟨a, rfl, Except.ok.inj h⟩, ?_⟩
    rintro ⟨_, ⟨⟩, rfl⟩
    rfl

theorem mapM_eq_ok {ε α β : Type} {g : α → Except ε β} {f : α → β} :
    ∀ {l : List α}, (∀ a ∈ l, g a = .ok (f a)) → l.mapM g = .ok (l.map f)
  | [], _ => rfl
  | a :: l, h => by
    rw [List.mapM_cons, h a List.mem_cons_self,
      mapM_eq_ok fun b hb => h b (List.mem_cons_of_mem a hb)]
    rfl

theorem ok_of_mapM_ok {ε α β : Type} {g : α → Except ε β} :
    ∀ {l : List α} {r : List β}, l.mapM g = .ok r → ∀ a ∈ l, ∃ b, g a = .ok b
  | [], _, _ => fun _ ha => absurd ha List.not_mem_nil
  | a :: l, r, h => by
    rw [List.mapM_cons] at h
    obtain ⟨b, hb, h⟩ := bind_eq_ok_iff.1 h
    obtain ⟨bs, hbs, -⟩ := bind_eq_ok_iff.1 h
    intro a' ha'
    rcases List.mem_cons.1 ha' with rfl | hm
    · exact ⟨b, hb⟩
    · exact ok_of_mapM_ok hbs a' hm

/-- A record that starts within its stride ends within the table. -/
theorem add_size_le_mul {i count stride size : Nat} (hi : i < count) (hs : size ≤ stride) :
    i * stride + size ≤ count * stride := by
  calc i * stride + size ≤ i * stride + stride := Nat.add_le_add_left hs _
    _ = (i + 1) * stride := (Nat.succ_mul i stride).symm
    _ ≤ count * stride := Nat.mul_le_mul_right stride hi

namespace View

variable {α : Type} {table : View} {count stride size : Nat} {read : Nat → View → Except Error α}
  {f : Nat → View → α}

/-- If every record fits and is read, so is the table. -/
theorem records_eq_ok (fits : ∀ i < count, i * stride + size ≤ table.length)
    (hread : ∀ i w, w.length = size → read i w = .ok (f i w)) :
    table.records count stride size read =
      .ok ((List.range count).map fun i => f i (table.window (i * stride) size)) := by
  refine mapM_eq_ok fun i hi => ?_
  have hf := fits i (List.mem_range.1 hi)
  rw [subview_eq_window hf]
  exact hread i _ (length_window hf)

theorem fits_of_records_ok {l : List α} (h : table.records count stride size read = .ok l) :
    ∀ i < count, i * stride + size ≤ table.length := by
  intro i hi
  obtain ⟨b, hb⟩ := ok_of_mapM_ok h i (List.mem_range.2 hi)
  obtain ⟨w, hw, -⟩ := bind_eq_ok_iff.1 hb
  exact (eq_window_of_subview hw).1

end View

namespace Image

theorem view_eq (image : Image) (offset length : Nat) :
    image.view offset length =
      if offset + length ≤ image.length then .ok (image.full.window offset length)
      else .error (.outOfBounds offset length image.length) :=
  rfl

/-- Whether an order is adopted depends on the order that is fixed. -/
theorem adopt_congr {a b fixed : Image} {order : ByteOrder} (ho : b.fixedOrder = a.fixedOrder)
    (h : a.adopt order = .ok fixed) :
    b.adopt order = .ok { b with fixedOrder := some order } := by
  unfold adopt at h ⊢
  rw [ho]
  split at h
  · next hs => rw [if_pos hs, ← hs, ← ho]
  · next hs =>
    obtain ⟨hn, -⟩ := bytes_of_fixOrder h
    rw [if_neg hs, fixOrder, ho, hn]

theorem toList_full (image : Image) : image.full.toList = image.bytes.data.toList :=
  Bytes.toList_ofArray image.bytes

end Image

end ElfFormat
