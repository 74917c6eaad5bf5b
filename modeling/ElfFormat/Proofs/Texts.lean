import Mathlib.Data.List.TakeWhile
import Mathlib.Logic.ExistsUnique
import ElfFormat.Proofs.Machine.Window
import ElfFormat.StringTable

/-!
# Texts in a view

A text is read from an offset on until one of three things stops it: a NUL, the limit or the end of
the view. `View.StopsAt` says so byte by byte, `View.TextAt` lists what becomes of the bytes in
front of that place, and nothing else is read (`View.text_eq_iff`). For each offset in the view and
each limit there is one such place (`View.exists_stopsAt`, `View.StopsAt.unique`).

Where a text stops does not depend on what it is cut out of. Past a NUL a larger limit changes
nothing (`View.StopsAt.of_nul`), and the end of a window is a limit of the view that the window was
cut from (`View.text_of_subview`), with the same failure at the same place of the image.
-/

namespace ElfFormat

theorem getElem?_length_takeWhile (l : List UInt8) :
    l[(l.takeWhile (· ≠ 0)).length]? = none ∨ l[(l.takeWhile (· ≠ 0)).length]? = some 0 := by
  have hrest : l.drop (l.takeWhile (· ≠ 0)).length = l.dropWhile (· ≠ 0) := by
    have h := congrArg (List.drop (l.takeWhile (· ≠ 0)).length)
      (@List.takeWhile_append_dropWhile _ (· ≠ 0) l)
    rwa [List.drop_left, eq_comm] at h
  rw [← List.head?_drop, hrest]
  have hhead := List.head?_dropWhile_not (fun b : UInt8 => decide (b ≠ 0)) l
  generalize (l.dropWhile fun b => decide (b ≠ 0)).head? = first at hhead ⊢
  cases first with
  | none => exact .inl rfl
  | some b => exact .inr (by simpa using hhead)

theorem getElem?_ne_zero_of_lt_takeWhile {l : List UInt8} {i : Nat}
    (h : i < (l.takeWhile (· ≠ 0)).length) : l[i]? ≠ some 0 := by
  intro hzero
  obtain ⟨hl, hzero⟩ := List.getElem?_eq_some_iff.1 hzero
  rw [← (List.takeWhile_prefix _).getElem h] at hzero
  have hne := List.mem_takeWhile_imp (List.getElem_mem h)
  rw [hzero] at hne
  cases hne

theorem Utf8.decode?_eq_none_iff {bytes : List UInt8} :
    decode? bytes = none ↔ ∀ s, encode s ≠ bytes := by
  simp only [Option.eq_none_iff_forall_ne_some, ne_eq, decode?_eq_some_iff]

namespace View

/-- The text at `offset` is stopped behind `count` bytes: there is no NUL among them, and a NUL, the
limit or the end of the view is next. -/
structure StopsAt (v : View) (offset limit count : Nat) : Prop where
  le_limit : count ≤ limit
  inside : offset + count ≤ v.length
  noNul : ∀ i < count, v.toList[offset + i]? ≠ some 0
  stopped : count = limit ∨ offset + count = v.length ∨ v.toList[offset + count]? = some 0

/-- What becomes of the text at `offset`. -/
inductive TextAt (v : View) (offset limit : Nat) : Except Error String → Prop where
  | outside (outside : v.length ≤ offset) :
    TextAt v offset limit (.error (.outOfBounds offset 1 v.length))
  | foreign (inside : offset < v.length) {count : Nat} (stops : v.StopsAt offset limit count)
    (foreign : ∀ s, Utf8.encode s ≠ (v.toList.drop offset).take count) :
    TextAt v offset limit (.error (.invalidString (v.offset + offset)))
  | text (inside : offset < v.length) {count : Nat} (stops : v.StopsAt offset limit count)
    {s : String} (run : Utf8.encode s = (v.toList.drop offset).take count) :
    TextAt v offset limit (.ok s)

variable {v w : View} {offset limit count : Nat}

/-! ## Where a text stops -/

namespace StopsAt

theorem le_of_stops {count' : Nat} (h : v.StopsAt offset limit count)
    (h' : v.StopsAt offset limit count') : count' ≤ count := by
  by_contra hlt
  have hlt : count < count' := Nat.not_le.1 hlt
  have hlimit := h'.le_limit
  have hinside := h'.inside
  rcases h.stopped with hl | he | hnul
  · omega
  · omega
  · exact h'.noNul count hlt hnul

theorem unique {count' : Nat} (h : v.StopsAt offset limit count)
    (h' : v.StopsAt offset limit count') : count' = count :=
  Nat.le_antisymm (h.le_of_stops h') (h'.le_of_stops h)

/-- Behind a NUL within the limit nothing depends on the limit. -/
theorem of_nul (h : v.StopsAt offset limit count) {i : Nat} (hi : i ≤ limit)
    (hnul : v.toList[offset + i]? = some 0) {more : Nat} (hm : limit ≤ more) :
    v.StopsAt offset more count := by
  have hlimit := h.le_limit
  have hle : count ≤ i := by
    by_contra hlt
    exact h.noNul i (Nat.not_le.1 hlt) hnul
  refine ⟨by omega, h.inside, h.noNul, ?_⟩
  rcases h.stopped with hl | he | hz
  · obtain rfl : count = i := by omega
    exact .inr (.inr hnul)
  · exact .inr (.inl he)
  · exact .inr (.inr hz)

end StopsAt

/-- The bytes that are searched for a NUL are cut to the limit first. -/
theorem stopsAt_takeWhile (h : offset ≤ v.length) :
    v.StopsAt offset limit
      (((v.toList.drop offset).take limit).takeWhile (· ≠ 0)).length := by
  have hl : (v.toList.drop offset).length = v.length - offset := by
    rw [List.length_drop, length_toList]
  have hle := (@List.takeWhile_prefix _ (v.toList.drop offset) (· ≠ 0)).length_le
  rw [← List.take_takeWhile, List.length_take]
  refine ⟨Nat.min_le_left _ _, by omega, ?_, ?_⟩
  · intro i hi
    rw [← List.getElem?_drop]
    exact getElem?_ne_zero_of_lt_takeWhile (by omega)
  · by_cases hcut : limit ≤ ((v.toList.drop offset).takeWhile (· ≠ 0)).length
    · exact .inl (Nat.min_eq_left hcut)
    · rw [Nat.min_eq_right (by omega), ← List.getElem?_drop]
      rcases getElem?_length_takeWhile (v.toList.drop offset) with hnone | hzero
      · rw [List.getElem?_eq_none_iff] at hnone
        exact .inr (.inl (by omega))
      · exact .inr (.inr hzero)

theorem exists_stopsAt (h : offset ≤ v.length) (limit : Nat) :
    ∃ count, v.StopsAt offset limit count :=
  ⟨_, stopsAt_takeWhile h⟩

theorem takeWhile_eq_of_stopsAt (h : v.StopsAt offset limit count) :
    ((v.toList.drop offset).take limit).takeWhile (· ≠ 0) =
      (v.toList.drop offset).take count := by
  have hinside := h.inside
  have hcount := h.unique (stopsAt_takeWhile (by omega))
  have hfront := @List.takeWhile_prefix _ ((v.toList.drop offset).take limit) (· ≠ 0)
  rw [← hcount]
  exact List.prefix_iff_eq_take.1 (hfront.trans (List.take_prefix _ _))

/-! ## What is read -/

theorem text_eq_of_stopsAt (inside : offset < v.length) (h : v.StopsAt offset limit count) :
    v.text offset limit =
      match Utf8.decode? ((v.toList.drop offset).take count) with
      | some s => .ok s
      | none => .error (.invalidString (v.offset + offset)) := by
  have htext := v.text_eq offset limit
  rw [if_neg (Nat.not_le.2 inside), takeWhile_eq_of_stopsAt h] at htext
  exact htext

/-- The outcome of reading a text says where it stops and what stands there. -/
theorem text_eq_iff (v : View) (offset limit : Nat) (r : Except Error String) :
    v.text offset limit = r ↔ v.TextAt offset limit r := by
  constructor
  · rintro rfl
    by_cases hout : v.length ≤ offset
    · rw [text_eq, if_pos hout]
      exact .outside hout
    · have inside := Nat.not_le.1 hout
      obtain ⟨count, hstops⟩ := exists_stopsAt (Nat.le_of_lt inside) limit
      rw [text_eq_of_stopsAt inside hstops]
      rcases hd : Utf8.decode? ((v.toList.drop offset).take count) with _ | s
      · exact .foreign inside hstops (Utf8.decode?_eq_none_iff.1 hd)
      · exact .text inside hstops (Utf8.decode?_eq_some_iff.1 hd)
  · intro h
    cases h with
    | outside hout => rw [text_eq, if_pos hout]
    | foreign inside hstops hforeign =>
      rw [text_eq_of_stopsAt inside hstops, Utf8.decode?_eq_none_iff.2 hforeign]
    | text inside hstops hrun =>
      rw [text_eq_of_stopsAt inside hstops, Utf8.decode?_eq_some_iff.2 hrun]

theorem text_eq_outOfBounds_iff :
    v.text offset limit = .error (.outOfBounds offset 1 v.length) ↔ v.length ≤ offset := by
  rw [text_eq_iff]
  constructor
  · intro h
    cases h with
    | outside hout => exact hout
  · exact .outside

/-- Behind a NUL the limit makes no difference. -/
theorem text_of_nul {i : Nat} (hi : i ≤ limit) (hnul : v.toList[offset + i]? = some 0) {more : Nat}
    (hm : limit ≤ more) : v.text offset more = v.text offset limit := by
  have hlt : offset + i < v.length := by
    rw [← length_toList]
    exact (List.getElem?_eq_some_iff.1 hnul).1
  have inside : offset < v.length := by omega
  obtain ⟨count, hstops⟩ := exists_stopsAt (Nat.le_of_lt inside) limit
  rw [text_eq_of_stopsAt inside hstops, text_eq_of_stopsAt inside (hstops.of_nul hi hnul hm)]

/-- The end of a window is a limit for the texts of the view that it was cut from. -/
theorem text_of_subview {o l p m : Nat} (h : v.subview o l = .ok w) (hp : p < l) :
    w.text p m = v.text (o + p) (min m (l - p)) := by
  have hlen := length_of_subview h
  obtain ⟨hle, hoffset, hbytes, -⟩ := subview_eq_ok_iff.1 h
  rw [text_eq, text_eq, if_neg (by omega), if_neg (by omega), hbytes, List.drop_take,
    List.take_take, List.drop_drop, hoffset, Nat.add_assoc]

end View

namespace StringTable

theorem string_eq (t : StringTable) (offset : Nat) :
    t.string offset =
      if t.view.length ≤ offset then .error (.outOfBounds offset 1 t.view.length)
      else
        match Utf8.decode? ((t.view.toList.drop offset).takeWhile (· ≠ 0)) with
        | some s => .ok s
        | none => .error (.invalidString (t.view.offset + offset)) := by
  have htext := t.view.text_eq offset t.view.length
  rw [List.take_of_length_le (by simp)] at htext
  exact htext

end StringTable

/-- A text is what is in front of the first stop, or the failure to read it. A limit past a NUL does
not count, and a window reads what its view does when the end of the window is its limit. -/
theorem texts_stop_first (v : View) :
    (∀ offset limit r, v.text offset limit = r ↔ v.TextAt offset limit r) ∧
    (∀ offset limit, v.text offset limit = .error (.outOfBounds offset 1 v.length) ↔
      v.length ≤ offset) ∧
    (∀ offset limit, offset < v.length → ∃! count, v.StopsAt offset limit count) ∧
    (∀ offset limit i more, i ≤ limit → v.toList[offset + i]? = some 0 → limit ≤ more →
      v.text offset more = v.text offset limit) ∧
    (∀ o l w, v.subview o l = .ok w → ∀ p m, p < l →
      w.text p m = v.text (o + p) (min m (l - p))) ∧
    ∀ w, Machine.Window.Reads w v → ∀ offset limit,
      Machine.Exact Eq (w.text offset limit) (v.text offset.toNat limit.toNat) := by
  refine ⟨v.text_eq_iff, fun _ _ => View.text_eq_outOfBounds_iff, ?_,
    fun _ _ _ _ hi hnul hm => View.text_of_nul hi hnul hm,
    fun _ _ _ h _ _ hp => View.text_of_subview h hp, fun _ hr => hr.text_exact⟩
  intro offset limit inside
  obtain ⟨count, hstops⟩ := View.exists_stopsAt (Nat.le_of_lt inside) limit
  exact ⟨count, hstops, fun _ h => hstops.unique h⟩

/-- A character of two bytes, one of a single byte and a NUL; then another text. -/
def twoByteText : View :=
  .ofList 7 [0xc3, 0xa9, 0x41, 0, 0x42] .little

/-- A limit of one byte cuts the character in two, and so does a window that starts inside it. -/
theorem texts_stop_first_twoByteText :
    twoByteText.text 0 1 = .error (.invalidString 7) ∧ twoByteText.text 0 3 = .ok "éA" ∧
      (∀ more, 3 ≤ more → twoByteText.text 0 more = .ok "éA") ∧
      ∃ w, twoByteText.subview 1 2 = .ok w ∧ w.text 1 (2 ^ 64 - 1) = .ok "A" ∧
        w.text 0 (2 ^ 64 - 1) = .error (.invalidString 8) := by
  obtain ⟨hiff, -, -, hnul, hwindow, -⟩ := texts_stop_first twoByteText
  have hcut : twoByteText.StopsAt 0 1 1 := ⟨by decide, by decide, by decide, .inl rfl⟩
  have hwhole : twoByteText.StopsAt 0 3 3 := ⟨by decide, by decide, by decide, .inl rfl⟩
  have hhalf : twoByteText.StopsAt 1 2 2 := ⟨by decide, by decide, by decide, .inl rfl⟩
  have hlast : twoByteText.StopsAt 2 1 1 := ⟨by decide, by decide, by decide, .inl rfl⟩
  have htext : twoByteText.text 0 3 = .ok "éA" :=
    (hiff 0 3 _).2 (.text (by decide) hwhole (by decide))
  obtain ⟨w, hw⟩ : ∃ w, twoByteText.subview 1 2 = .ok w := ⟨_, rfl⟩
  refine ⟨?_, htext, ?_, w, hw, ?_, ?_⟩
  · rw [hiff]
    exact .foreign (by decide) hcut (Utf8.decode?_eq_none_iff.1 (by decide +kernel))
  · intro more hm
    rw [hnul 0 3 3 more (by decide) (by decide) hm, htext]
  · rw [hwindow 1 2 w hw 1 _ (by decide), hiff]
    exact .text (by decide) hlast (by decide)
  · rw [hwindow 1 2 w hw 0 _ (by decide), hiff]
    exact .foreign (by decide) hhalf (Utf8.decode?_eq_none_iff.1 (by decide +kernel))

end ElfFormat
