import ElfFormat.Proofs.Machine.Decoder
import ElfFormat.Proofs.Texts

/-!
# The texts of a string table

A table is listed run by run, each run up to the next NUL, and it is looked up at any offset. The
listing is the shape of the bytes: a run and the NUL behind it, over and over, with a run at the end
that may lack its NUL (`StringTable.Listing`, `StringTable.listing_runs`). That the offsets are
those behind the NULs, that nothing is left out and that nothing is listed twice follows by
induction on that shape, and so does where in the bytes each run stands
(`StringTable.Listing.exists_split`).

From there a look-up is known without going through the listing: what is in front of the next NUL,
from any place inside a run on, is the rest of the run.
-/

namespace ElfFormat

namespace StringTable

/-- A text starts at the front, and behind every NUL but one that ends the table. -/
def StartsAt (bytes : List UInt8) (i : Nat) : Prop :=
  i < bytes.length ∧ (i = 0 ∨ ∃ j, bytes[j]? = some 0 ∧ i = j + 1)

/-- The NUL that is missing behind the last text. -/
def missingNul (bytes : List UInt8) : List UInt8 :=
  if bytes = [] ∨ bytes.getLast? = some 0 then [] else [0]

/-- The runs of bytes between the NULs, each with its offset. -/
structure Enumerates (items : List (Nat × List UInt8)) (bytes : List UInt8) : Prop where
  mem_iff : ∀ i, (∃ run, (i, run) ∈ items) ↔ StartsAt bytes i
  /-- Each run and its NUL are in front of the next one. -/
  increasing : items.Pairwise fun a b => a.1 + a.2.length < b.1
  noNul : ∀ item ∈ items, 0 ∉ item.2
  joined : items.flatMap (fun item => item.2 ++ [0]) = bytes ++ missingNul bytes
  /-- Each offset is inside a run or on the NUL behind it. -/
  covers : ∀ o < bytes.length, ∃ item ∈ items, item.1 ≤ o ∧ o ≤ item.1 + item.2.length

/-- How look-ups at a run that is listed at `start` go. -/
structure Finds (t : StringTable) (start : Nat) (run : List UInt8) : Prop where
  listed : (∃ s, Utf8.encode s = run) → t.string start = .ok (Utf8.decodeLossy run)
  foreign : (∀ s, Utf8.encode s ≠ run) →
    t.string start = .error (.invalidString (t.view.offset + start))
  inside : ∀ k ≤ run.length, start + k < t.length → ∀ s,
    t.string (start + k) = .ok s ↔ Utf8.encode s = run.drop k

/-- Bytes from position `start` on as runs, each with a NUL behind it, save that the last one may
lack it. -/
inductive Listing : Nat → List UInt8 → List (Nat × List UInt8) → Prop where
  | nil (start : Nat) : Listing start [] []
  | last (start : Nat) {run : List UInt8} (ne_nil : run ≠ []) (noNul : 0 ∉ run) :
    Listing start run [(start, run)]
  | next (start : Nat) {run rest : List UInt8} {items : List (Nat × List UInt8)} (noNul : 0 ∉ run)
    (behind : Listing (start + run.length + 1) rest items) :
    Listing start (run ++ 0 :: rest) ((start, run) :: items)

theorem zero_not_mem_takeWhile (bytes : List UInt8) : 0 ∉ bytes.takeWhile (· ≠ 0) := by
  intro h
  exact absurd (List.mem_takeWhile_imp h) (by decide)

/-- Bytes without a NUL are one run, and others are a run, a NUL and the rest. -/
theorem takeWhile_cases (bytes : List UInt8) :
    bytes.takeWhile (· ≠ 0) = bytes ∨
      bytes = bytes.takeWhile (· ≠ 0) ++
        0 :: bytes.drop ((bytes.takeWhile (· ≠ 0)).length + 1) := by
  have hfront := List.prefix_iff_eq_take.1 (@List.takeWhile_prefix _ bytes (· ≠ 0))
  rcases getElem?_length_takeWhile bytes with hnone | hzero
  · rw [List.getElem?_eq_none_iff] at hnone
    rw [List.take_of_length_le hnone] at hfront
    exact .inl hfront
  · obtain ⟨hlt, hzero⟩ := List.getElem?_eq_some_iff.1 hzero
    have hsplit := List.take_append_drop (bytes.takeWhile (· ≠ 0)).length bytes
    rw [List.drop_eq_getElem_cons hlt, hzero, ← hfront] at hsplit
    exact .inr hsplit.symm

theorem listing_runs (start : Nat) (bytes : List UInt8) :
    Listing start bytes (runs start bytes) := by
  rw [runs]
  split
  · next hnil =>
    subst hnil
    exact .nil start
  · next hne =>
    let run := bytes.takeWhile (· ≠ 0)
    show Listing start bytes
      ((start, run) :: runs (start + run.length + 1) (bytes.drop (run.length + 1)))
    have hnul : 0 ∉ run := zero_not_mem_takeWhile bytes
    rcases takeWhile_cases bytes with hall | hsplit
    · rw [show run = bytes from hall] at hnul ⊢
      rw [List.drop_of_length_le (Nat.le_succ _), runs, if_pos rfl]
      exact .last start hne hnul
    · have hlen := congrArg List.length hsplit
      have ih := listing_runs (start + run.length + 1) (bytes.drop (run.length + 1))
      have hnext := Listing.next start hnul ih
      rwa [← hsplit] at hnext
termination_by bytes.length
decreasing_by
  rw [List.length_append, List.length_cons] at hlen
  omega

/-- Behind the first string strings start where they start in the rest. -/
theorem startsAt_append {run : List UInt8} (noNul : 0 ∉ run) (rest : List UInt8) (i : Nat) :
    StartsAt (run ++ 0 :: rest) i ↔
      i = 0 ∨ ∃ j, StartsAt rest j ∧ i = run.length + 1 + j := by
  have hlen : (run ++ 0 :: rest).length = run.length + 1 + rest.length := by
    rw [List.length_append, List.length_cons]
    omega
  constructor
  · rintro ⟨hi, h0 | ⟨j, hj, rfl⟩⟩
    · exact .inl h0
    rw [hlen] at hi
    -- The NUL in front is the one behind the run, or one of the rest.
    rcases Nat.lt_trichotomy j run.length with hlt | rfl | hgt
    · rw [List.getElem?_append_left hlt] at hj
      exact absurd (List.mem_of_getElem? hj) noNul
    · exact .inr ⟨0, ⟨by omega, .inl rfl⟩, rfl⟩
    · obtain ⟨m, rfl⟩ := Nat.exists_eq_add_of_lt hgt
      rw [List.getElem?_append_right (by omega),
        show run.length + m + 1 - run.length = m + 1 by omega, List.getElem?_cons_succ] at hj
      exact .inr ⟨m + 1, ⟨by omega, .inr ⟨m, hj, rfl⟩⟩, by omega⟩
  · rintro (rfl | ⟨j, ⟨hj, hstart⟩, rfl⟩)
    · exact ⟨by omega, .inl rfl⟩
    refine ⟨by omega, .inr ⟨run.length + j, ?_, by omega⟩⟩
    rw [List.getElem?_append_right (by omega), Nat.add_sub_cancel_left]
    rcases hstart with rfl | ⟨m, hm, rfl⟩
    · rfl
    · rw [List.getElem?_cons_succ, hm]

theorem missingNul_append (run rest : List UInt8) :
    missingNul (run ++ 0 :: rest) = missingNul rest := by
  cases rest with
  | nil => simp [missingNul]
  | cons b rest => simp [missingNul, List.getLast?_append, List.getLast?_cons]

/-! ## What is listed -/

namespace Listing

variable {start : Nat} {bytes : List UInt8} {items : List (Nat × List UInt8)}

theorem le_of_mem (h : Listing start bytes items) : ∀ item ∈ items, start ≤ item.1 := by
  induction h with
  | nil => nofun
  | last start => simp
  | next start noNul behind ih =>
    intro item hitem
    rcases List.mem_cons.1 hitem with rfl | hitem
    · exact Nat.le_refl _
    · have := ih item hitem
      omega

/-- A string is listed at an offset exactly if one starts there. -/
theorem mem_iff (h : Listing start bytes items) (i : Nat) :
    (∃ run, (i, run) ∈ items) ↔ ∃ j, StartsAt bytes j ∧ i = start + j := by
  induction h with
  | nil => simp [StartsAt]
  | @last start run ne_nil noNul =>
    have hpos := List.length_pos_iff.2 ne_nil
    simp only [List.mem_singleton, Prod.mk.injEq, exists_eq_right]
    constructor
    · rintro rfl
      exact ⟨0, ⟨hpos, .inl rfl⟩, rfl⟩
    · rintro ⟨j, ⟨-, rfl | ⟨k, hk, -⟩⟩, rfl⟩
      · rfl
      · exact absurd (List.mem_of_getElem? hk) noNul
  | @next start run rest items noNul behind ih =>
    simp only [List.mem_cons, Prod.mk.injEq, exists_or, exists_eq_right, ih,
      startsAt_append noNul]
    constructor
    · rintro (rfl | ⟨j, hj, rfl⟩)
      · exact ⟨0, .inl rfl, rfl⟩
      · exact ⟨_, .inr ⟨j, hj, rfl⟩, by omega⟩
    · rintro ⟨j, rfl | ⟨k, hk, rfl⟩, rfl⟩
      · exact .inl rfl
      · exact .inr ⟨k, hk, by omega⟩

theorem increasing (h : Listing start bytes items) :
    items.Pairwise fun a b => a.1 + a.2.length < b.1 := by
  induction h with
  | nil => exact .nil
  | last => exact List.pairwise_singleton _ _
  | next start noNul behind ih =>
    refine .cons ?_ ih
    intro item hitem
    exact behind.le_of_mem item hitem

theorem noNul (h : Listing start bytes items) : ∀ item ∈ items, 0 ∉ item.2 := by
  induction h with
  | nil => nofun
  | last start ne_nil noNul => simpa using noNul
  | next start noNul behind ih => exact List.forall_mem_cons.2 ⟨noNul, ih⟩

/-- The strings with a NUL behind each are the table, and the one NUL that may be missing. -/
theorem joined (h : Listing start bytes items) :
    items.flatMap (fun item => item.2 ++ [0]) = bytes ++ missingNul bytes := by
  induction h with
  | nil => simp [missingNul]
  | @last start run ne_nil noNul =>
    have hlast : run.getLast? ≠ some 0 := fun h => noNul (List.mem_of_getLast? h)
    simp [missingNul, ne_nil, hlast]
  | next start noNul behind ih =>
    rw [List.flatMap_cons, ih, missingNul_append]
    simp

/-- Every byte belongs to a string or is the NUL behind one. -/
theorem covers (h : Listing start bytes items) : ∀ o < bytes.length,
    ∃ item ∈ items, item.1 ≤ start + o ∧ start + o ≤ item.1 + item.2.length := by
  induction h with
  | nil => intro o ho; cases ho
  | @last start run =>
    intro o ho
    exact ⟨_, List.mem_singleton_self _, Nat.le_add_right _ _, Nat.add_le_add_left ho.le _⟩
  | @next start run rest items noNul behind ih =>
    intro o ho
    rw [List.length_append, List.length_cons] at ho
    by_cases hrun : o ≤ run.length
    · exact ⟨_, List.mem_cons_self, Nat.le_add_right _ _, Nat.add_le_add_left hrun _⟩
    · obtain ⟨item, hitem, hlow, hhigh⟩ := ih (o - run.length - 1) (by omega)
      exact ⟨item, List.mem_cons_of_mem _ hitem, by omega, by omega⟩

/-- A run stands at its offset, in front of a NUL or at the end. -/
theorem exists_split (h : Listing start bytes items) : ∀ item ∈ items, ∃ front back,
    bytes = front ++ (item.2 ++ back) ∧ item.1 = start + front.length ∧
      (back = [] ∨ back.head? = some 0) := by
  induction h with
  | nil => nofun
  | @last start run =>
    intro item hitem
    obtain rfl := List.mem_singleton.1 hitem
    exact ⟨[], [], by simp, rfl, .inl rfl⟩
  | @next start run rest items noNul behind ih =>
    intro item hitem
    rcases List.mem_cons.1 hitem with rfl | hitem
    · exact ⟨[], 0 :: rest, rfl, rfl, .inr rfl⟩
    · obtain ⟨front, back, rfl, hstart, hback⟩ := ih item hitem
      refine ⟨run ++ 0 :: front, back, by simp, ?_, hback⟩
      rw [hstart, List.length_append, List.length_cons]
      omega

theorem enumerates (h : Listing 0 bytes items) : Enumerates items bytes where
  mem_iff i := by simpa using h.mem_iff i
  increasing := h.increasing
  noNul := h.noNul
  joined := h.joined
  covers := by simpa using h.covers

end Listing

/-! ## What is found -/

theorem takeWhile_append_of_noNul {run back : List UInt8} (noNul : 0 ∉ run)
    (hback : back = [] ∨ back.head? = some 0) : (run ++ back).takeWhile (· ≠ 0) = run := by
  have hne : ∀ b ∈ run, decide (b ≠ 0) = true := by
    intro b hb
    exact decide_eq_true fun h => noNul (h ▸ hb)
  rw [List.takeWhile_append_of_pos hne]
  rcases hback with rfl | hzero
  · simp
  · cases back with
    | nil => simp
    | cons b back => simp_all

theorem string_of_run {t : StringTable} {offset : Nat} {run : List UInt8}
    (inside : offset < t.view.length)
    (hrun : (t.view.toList.drop offset).takeWhile (· ≠ 0) = run) :
    t.string offset =
      match Utf8.decode? run with
      | some s => .ok s
      | none => .error (.invalidString (t.view.offset + offset)) := by
  have hstring := t.string_eq offset
  rw [if_neg (Nat.not_le.2 inside), hrun] at hstring
  exact hstring

/-- What is listed is what a look-up finds there, and at every offset inside the string its rest. -/
theorem finds_of_mem (t : StringTable) :
    ∀ item ∈ runs 0 t.view.toList, t.Finds item.1 item.2 := by
  intro item hitem
  have hlisting := listing_runs 0 t.view.toList
  have hnul := hlisting.noNul item hitem
  obtain ⟨front, back, hbytes, hstart, hback⟩ := hlisting.exists_split item hitem
  rw [Nat.zero_add] at hstart
  have hrun : ∀ k ≤ item.2.length,
      (t.view.toList.drop (item.1 + k)).takeWhile (· ≠ 0) = item.2.drop k := by
    intro k hk
    have hrest : (item.2.drop k ++ back).takeWhile (· ≠ 0) = item.2.drop k :=
      takeWhile_append_of_noNul (fun h => hnul (List.mem_of_mem_drop h)) hback
    rw [hbytes, hstart, List.drop_append, Nat.add_sub_cancel_left,
      List.drop_of_length_le (Nat.le_add_right _ _), List.nil_append,
      List.drop_append_of_le_length hk, hrest]
  have hinside : item.1 < t.view.length := by
    have h := (hlisting.enumerates.mem_iff item.1).1 ⟨item.2, hitem⟩
    simpa using h.1
  have hwhole := hrun 0 (Nat.zero_le _)
  rw [List.drop_zero, Nat.add_zero] at hwhole
  refine ⟨?_, ?_, ?_⟩
  · rintro ⟨s, hs⟩
    have hd := Utf8.decode?_eq_some_iff.2 hs
    rw [Utf8.decodeLossy_of_decode? hd, string_of_run hinside hwhole, hd]
  · intro hforeign
    rw [string_of_run hinside hwhole, Utf8.decode?_eq_none_iff.2 hforeign]
  · intro k hk hlt s
    rw [string_of_run hlt (hrun k hk), ← Utf8.decode?_eq_some_iff]
    cases Utf8.decode? (item.2.drop k) <;> simp

end StringTable

open StringTable in
/-- The listing has one run for each place where a text starts, in the order of the places, and
together they are the table; each text that is listed is found at its offset, unless it is only
shown, and inside a run the rest of it is found. -/
theorem listing_agrees_with_lookup (t : StringTable) :
    t.strings = (runs 0 t.view.toList).map (fun item => (item.1, Utf8.decodeLossy item.2)) ∧
    Enumerates (runs 0 t.view.toList) t.view.toList ∧
    (∀ item ∈ runs 0 t.view.toList, t.Finds item.1 item.2) ∧
    ∀ w, Machine.Window.Reads w t.view →
      Machine.Exact (List.Forall₂ Machine.ReadsString) (Machine.strings w) (.ok t.strings) ∧
      ∀ offset, Machine.Exact Eq (w.string offset) (t.string offset.toNat) := by
  refine ⟨rfl, (listing_runs 0 t.view.toList).enumerates, t.finds_of_mem, ?_⟩
  intro w hr
  exact ⟨Machine.strings_exact hr, hr.string_exact⟩

/-- An empty text, `ab`, and a run that is no text as a whole, with no NUL behind it. -/
def brokenTail : Image where
  bytes := ⟨#[0, 0x61, 0x62, 0, 0xff, 0x63]⟩

/-- The broken run is shown with a replacement and not found, but what is behind its first byte
is. -/
theorem listing_agrees_with_lookup_brokenTail :
    let t : StringTable := ⟨brokenTail.full⟩
    t.strings = [(0, ""), (1, "ab"), (4, "\uFFFDc")] ∧ t.string 2 = .ok "b" ∧ t.string 3 = .ok "" ∧
      t.string 4 = .error (.invalidString 4) ∧ t.string 5 = .ok "c" ∧
      ∀ mode, ∃ items, Machine.strings (.full brokenTail) mode = .ok items ∧
        List.Forall₂ Machine.ReadsString items [(0, ""), (1, "ab"), (4, "\uFFFDc")] := by
  intro t
  obtain ⟨hstrings, -, hfinds, hmachine⟩ := listing_agrees_with_lookup t
  have hruns : StringTable.runs 0 t.view.toList =
      [(0, []), (1, [0x61, 0x62]), (4, [0xff, 0x63])] := by
    decide +kernel
  rw [hruns] at hstrings hfinds
  have hlist : t.strings = [(0, ""), (1, "ab"), (4, "\uFFFDc")] := by
    rw [hstrings]
    decide +kernel
  have hab := hfinds (1, [0x61, 0x62]) (by simp)
  have hbroken := hfinds (4, [0xff, 0x63]) (by simp)
  refine ⟨hlist, ?_, ?_, ?_, ?_, ?_⟩
  · exact (hab.inside 1 (by decide) (by decide) _).2 (by decide)
  · exact (hab.inside 2 (by decide) (by decide) _).2 (by decide)
  · exact hbroken.foreign (Utf8.decode?_eq_none_iff.1 (by decide +kernel))
  · exact (hbroken.inside 1 (by decide) (by decide) _).2 (by decide)
  · intro mode
    have hm := (hmachine _ (Machine.Window.full_reads (by decide))).1
    rw [hlist] at hm
    exact hm.eq_ok mode

end ElfFormat
