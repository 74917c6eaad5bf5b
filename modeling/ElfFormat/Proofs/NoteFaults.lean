import Mathlib.Logic.ExistsUnique
import ElfFormat.Proofs.Machine.Payload
import ElfFormat.Proofs.NoteGrammar

/-!
# Where notes fail

`NoteRun` cuts records out of a region, one behind the other, as long as one likes. Where it stops,
there is another record, or a header that begins none (`NoteHeader.Refuses`), or no room for a
header; which of the three depends on the place alone (`stands_iff`). As records are longer than
headers, a run comes to one of the last two in the end (`NoteRun.exists_end`), always at the same
place (`NoteRun.unique`), and the reader has got there (`NoteRun.readFrom_eq`).

The cursor of the reader is a multiple of 4, or it is at the end of the region, since that is how it
is advanced. Nothing of this is lost in words: the sizes are numbers of 32 bits, and a region is
too short for a sum of them to wrap.
-/

namespace ElfFormat

/-- There is room for a header at `c`, and what stands there begins no record. -/
structure Note.FailsAt (v : View) (c : Nat) (e : Error) : Prop where
  fits : c + NoteHeader.size ≤ v.length
  refuses : (NoteHeader.ofView v c).Refuses v c e

/-- No record stands at `c`, as the rest is too short for a header or a header is refused. -/
def Note.EndsAt (v : View) (c : Nat) : Prop :=
  v.length < c + NoteHeader.size ∨ ∃ e, FailsAt v c e

/-! ## Records where they stand -/

/-- The view has the record at `start`, with its paddings. -/
structure NoteRecord.StandsAt (r : NoteRecord) (v : View) (start : Nat) : Prop where
  aligned : r.Aligned start (v.toList.drop (start + r.size))
  drop_eq : v.toList.drop start = r.bytes v.order ++ v.toList.drop (start + r.size)

namespace NoteRecord

variable {v : View} {start : Nat} {r r' : NoteRecord}

theorem StandsAt.fits (h : r.StandsAt v start) : start + NoteHeader.size ≤ v.length :=
  (read_of_aligned h.aligned h.drop_eq).1

theorem StandsAt.header_eq (h : r.StandsAt v start) : NoteHeader.ofView v start = r.header := by
  obtain ⟨fits, hrun, -, -⟩ := read_of_aligned h.aligned h.drop_eq
  exact Except.ok.inj ((NoteHeader.run_fields fits).symm.trans hrun)

theorem StandsAt.readNote_eq (h : r.StandsAt v start) :
    (NoteHeader.ofView v start).readNote v start = .ok (r.note v start) := by
  rw [h.header_eq]
  exact (read_of_aligned h.aligned h.drop_eq).2.2.1

theorem StandsAt.next_eq (h : r.StandsAt v start) :
    (NoteHeader.ofView v start).next start v.length = start + r.size := by
  rw [h.header_eq]
  exact (read_of_aligned h.aligned h.drop_eq).2.2.2

theorem StandsAt.unique (h : r.StandsAt v start) (h' : r'.StandsAt v start) : r = r' :=
  (eq_of_append h.aligned h'.aligned (h.drop_eq.symm.trans h'.drop_eq)).1

/-- Where there is room for a header, it begins a record or it is refused. -/
theorem stands_or_fails (fits : start + NoteHeader.size ≤ v.length) :
    (∃ r : NoteRecord, r.StandsAt v start) ∨ ∃ e, Note.FailsAt v start e := by
  rcases hread : (NoteHeader.ofView v start).readNote v start with e | note
  · exact .inr ⟨e, fits, (NoteHeader.readNote_eq_error_iff fits).1 hread⟩
  · obtain ⟨r, hr, hd⟩ := exists_aligned fits (NoteHeader.run_fields fits) hread
    exact .inl ⟨r, hr, hd⟩

theorem StandsAt.not_fails (h : r.StandsAt v start) (e : Error) : ¬Note.FailsAt v start e := by
  intro hf
  have herror := (NoteHeader.readNote_eq_error_iff hf.fits).2 hf.refuses
  rw [h.readNote_eq] at herror
  cases herror

theorem StandsAt.not_ends (h : r.StandsAt v start) : ¬Note.EndsAt v start := by
  rintro (short | ⟨e, hf⟩)
  · exact Nat.not_lt.2 h.fits short
  · exact h.not_fails e hf

/-- A header that fits begins a record, or is refused. -/
theorem stands_iff (fits : start + NoteHeader.size ≤ v.length) :
    (∃ r : NoteRecord, r.StandsAt v start) ↔ ∀ e, ¬Note.FailsAt v start e := by
  constructor
  · rintro ⟨r, hr⟩
    exact hr.not_fails
  · intro h
    rcases stands_or_fails fits with hr | ⟨e, he⟩
    · exact hr
    · exact absurd he (h e)

end NoteRecord

/-! ## Runs of records -/

/-- Records of a region from `start` on, one behind the other, up to `stop`. -/
inductive NoteRun (v : View) : Nat → List NoteRecord → Nat → Prop where
  | stop {start : Nat} : NoteRun v start [] start
  | record {start : Nat} {r : NoteRecord} {records : List NoteRecord} {stop : Nat}
    (stands : r.StandsAt v start) (behind : NoteRun v (start + r.size) records stop) :
    NoteRun v start (r :: records) stop

namespace NoteRun

variable {v : View} {start c c' : Nat} {records records' : List NoteRecord}

/-- The reader gets to the end of the run with the records of the run. -/
theorem readFrom_eq (h : NoteRun v start records c) :
    Note.readFrom v start = (Note.readFrom v c).map (NoteRecord.notes v start records ++ ·) := by
  induction h with
  | @stop start =>
    show _ = (Note.readFrom v start).map id
    cases Note.readFrom v start <;> rfl
  | @record start r records c stands behind ih =>
    rw [Note.readFrom, dif_pos stands.fits, NoteHeader.run_fields stands.fits]
    show (do
      let note ← (NoteHeader.ofView v start).readNote v start
      let notes ← Note.readFrom v ((NoteHeader.ofView v start).next start v.length)
      return note :: notes) = _
    rw [stands.readNote_eq, stands.next_eq, ih]
    cases Note.readFrom v c <;> rfl

/-- Every region is cut up to a place where there is no further record. -/
theorem exists_end (v : View) (start : Nat) :
    ∃ records c, NoteRun v start records c ∧ Note.EndsAt v c := by
  by_cases fits : start + NoteHeader.size ≤ v.length
  · rcases NoteRecord.stands_or_fails fits with ⟨r, hr⟩ | he
    -- A record is no shorter than its header, so less of the region is left behind it.
    · have hsize := r.size_le
      obtain ⟨records, c, hrun, hend⟩ := exists_end v (start + r.size)
      exact ⟨r :: records, c, .record hr hrun, hend⟩
    · exact ⟨[], start, .stop, .inr he⟩
  · exact ⟨[], start, .stop, .inl (Nat.not_le.1 fits)⟩
termination_by v.length - start
decreasing_by
  have hs : NoteHeader.size = 12 := rfl
  omega

/-- There is one run that cannot go on. -/
theorem unique (h : NoteRun v start records c) (h' : NoteRun v start records' c')
    (hc : Note.EndsAt v c) (hc' : Note.EndsAt v c') : records = records' ∧ c = c' := by
  induction h generalizing records' with
  | stop =>
    cases h' with
    | stop => exact ⟨rfl, rfl⟩
    | record stands => exact absurd hc stands.not_ends
  | record stands behind ih =>
    cases h' with
    | stop => exact absurd hc' stands.not_ends
    | record stands' behind' =>
      -- The records at one place are the same, so both runs go on from the same place.
      obtain rfl := stands.unique stands'
      obtain ⟨rfl, rfl⟩ := ih behind' hc
      exact ⟨rfl, rfl⟩

theorem concat (h : NoteRun v start records c) {r : NoteRecord} (hr : r.StandsAt v c) :
    NoteRun v start (records ++ [r]) (c + r.size) := by
  induction h with
  | stop => exact .record hr .stop
  | record stands behind ih => exact .record stands (ih hr)

/-- Each record takes the size of a header at least. -/
theorem add_le (h : NoteRun v start records c) :
    start + NoteHeader.size * records.length ≤ c := by
  induction h with
  | stop => exact Nat.le_refl _
  | @record start r records c stands behind ih =>
    have hsize := r.size_le
    rw [List.length_cons, Nat.mul_succ]
    omega

theorem le_length (h : NoteRun v start records c) (hle : start ≤ v.length) : c ≤ v.length := by
  induction h with
  | stop => exact hle
  | record stands behind ih =>
    refine ih ?_
    rw [← stands.next_eq]
    exact Nat.min_le_right _ _

/-- The cursor is advanced to a multiple of 4, or as far as the region goes. -/
theorem dvd_or_eq_length (h : NoteRun v start records c)
    (hstart : NoteHeader.padding ∣ start ∨ start = v.length) :
    NoteHeader.padding ∣ c ∨ c = v.length := by
  induction h with
  | stop => exact hstart
  | record stands behind ih =>
    refine ih ?_
    rw [← stands.next_eq, NoteHeader.next, Nat.min_def]
    split
    · exact .inl (dvd_roundUp _ (by decide))
    · exact .inr rfl

end NoteRun

namespace NoteTable

variable {v : View} {c : Nat} {e : Error} {records : List NoteRecord}

theorem parse_of_short (h : NoteRun v 0 records c) (short : v.length < c + NoteHeader.size) :
    parse v = .ok { view := v, notes := NoteRecord.notes v 0 records } := by
  have hlast : Note.readFrom v c = .ok [] := by
    rw [Note.readFrom, dif_neg (Nat.not_le.2 short)]
    rfl
  rw [parse, h.readFrom_eq, hlast]
  exact congrArg (fun notes => Except.ok (NoteTable.mk v notes)) (List.append_nil _)

theorem parse_of_failsAt (h : NoteRun v 0 records c) (hf : Note.FailsAt v c e) :
    parse v = .error e := by
  have hlast : Note.readFrom v c = .error e := by
    rw [Note.readFrom, dif_pos hf.fits, NoteHeader.run_fields hf.fits]
    show ((NoteHeader.ofView v c).readNote v c >>= _) = _
    rw [(NoteHeader.readNote_eq_error_iff hf.fits).2 hf.refuses]
    rfl
  rw [parse, h.readFrom_eq, hlast]
  rfl

theorem parse_eq_error_iff :
    parse v = .error e ↔ ∃ records c, NoteRun v 0 records c ∧ Note.FailsAt v c e := by
  constructor
  · intro h
    obtain ⟨records, c, hrun, short | ⟨e', hf⟩⟩ := NoteRun.exists_end v 0
    · rw [parse_of_short hrun short] at h
      cases h
    · rw [parse_of_failsAt hrun hf] at h
      obtain rfl := Except.error.inj h
      exact ⟨records, c, hrun, hf⟩
  · rintro ⟨records, c, hrun, hf⟩
    exact parse_of_failsAt hrun hf

theorem parse_eq_ok_iff_run {table : NoteTable} :
    parse v = .ok table ↔ ∃ records c, NoteRun v 0 records c ∧ v.length < c + NoteHeader.size ∧
      table = { view := v, notes := NoteRecord.notes v 0 records } := by
  constructor
  · intro h
    obtain ⟨records, c, hrun, short | ⟨e, hf⟩⟩ := NoteRun.exists_end v 0
    · rw [parse_of_short hrun short] at h
      exact ⟨records, c, hrun, short, (Except.ok.inj h).symm⟩
    · rw [parse_of_failsAt hrun hf] at h
      cases h
  · rintro ⟨records, c, hrun, short, rfl⟩
    exact parse_of_short hrun short

end NoteTable

/-- What holds when the cursor of the reader stands at `c`, behind these records. -/
structure NoteCursor (v : View) (records : List NoteRecord) (c : Nat) : Prop where
  readFrom_eq : Note.readFrom v 0 = (Note.readFrom v c).map (NoteRecord.notes v 0 records ++ ·)
  le_length : c ≤ v.length
  dvd_or_eq_length : NoteHeader.padding ∣ c ∨ c = v.length
  mul_length_le : NoteHeader.size * records.length ≤ c
  /-- The header is read without a failure. -/
  run_fields : c + NoteHeader.size ≤ v.length →
    NoteHeader.fields.run v c = .ok (NoteHeader.ofView v c)
  /-- The cursor is advanced, and behind a record it stands where the record ends. -/
  lt_next : c + NoteHeader.size ≤ v.length → c < (NoteHeader.ofView v c).next c v.length
  concat : ∀ r : NoteRecord, r.StandsAt v c →
    NoteRun v 0 (records ++ [r]) ((NoteHeader.ofView v c).next c v.length)

theorem NoteRun.cursor {v : View} {records : List NoteRecord} {c : Nat}
    (h : NoteRun v 0 records c) : NoteCursor v records c where
  readFrom_eq := h.readFrom_eq
  le_length := h.le_length (Nat.zero_le _)
  dvd_or_eq_length := h.dvd_or_eq_length (.inl (Nat.dvd_zero _))
  mul_length_le := by
    have hle := h.add_le
    omega
  run_fields := NoteHeader.run_fields
  lt_next := (NoteHeader.ofView v c).start_lt_next
  concat r hr := by
    rw [hr.next_eq]
    exact h.concat hr

/-- The region is cut into records up to the first place where there is none. A header that is
refused there makes the reading fail in the way in which it is refused, and a rest that is too short
for a header is left alone. -/
theorem notes_fail_at_first_refusal (v : View) :
    (∃! p : List NoteRecord × Nat, NoteRun v 0 p.1 p.2 ∧ Note.EndsAt v p.2) ∧
    (∀ c, c + NoteHeader.size ≤ v.length →
      ((∃ r : NoteRecord, r.StandsAt v c) ↔ ∀ e, ¬Note.FailsAt v c e)) ∧
    (∀ e, NoteTable.parse v = .error e ↔
      ∃ records c, NoteRun v 0 records c ∧ Note.FailsAt v c e) ∧
    (∀ table, NoteTable.parse v = .ok table ↔
      ∃ records c, NoteRun v 0 records c ∧ v.length < c + NoteHeader.size ∧
        table = { view := v, notes := NoteRecord.notes v 0 records }) ∧
    (∀ offset length size, NoteTable.parse v ≠ .error (.outOfBounds offset length size)) ∧
    (∀ records c, NoteRun v 0 records c → NoteCursor v records c) ∧
    ∀ w, Machine.Window.Reads w v →
      Machine.Exact Machine.NoteTable.Reads (Machine.noteTable w) (NoteTable.parse v) := by
  refine ⟨?_, fun _ => NoteRecord.stands_iff, fun _ => NoteTable.parse_eq_error_iff,
    fun _ => NoteTable.parse_eq_ok_iff_run, fun _ _ _ h => ?_, fun _ _ => NoteRun.cursor,
    fun _ => Machine.noteTable_exact⟩
  · obtain ⟨records, c, hrun, hend⟩ := NoteRun.exists_end v 0
    refine ⟨(records, c), ⟨hrun, hend⟩, ?_⟩
    rintro ⟨records', c'⟩ ⟨hrun', hend'⟩
    obtain ⟨rfl, rfl⟩ := hrun.unique hrun' hend hend'
    rfl
  · obtain ⟨_, _, -, hf⟩ := NoteTable.parse_eq_error_iff.1 h
    cases hf.refuses

/-- A note of the owner `A`, and one of `B` whose descriptor of one byte is missing, with the
padding in front of it. -/
def cutOffNotes : View :=
  .ofList 5 [0, 0, 0, 1, 0, 0, 0, 0, 0, 0, 0, 7, 0x41, 0, 0, 0, 0, 0, 0, 1, 0, 0, 0, 1, 0, 0, 0, 7,
    0x42] .big

theorem notes_fail_at_first_refusal_cutOffNotes :
    (∃ r : NoteRecord, r.owner = "A" ∧ NoteRun cutOffNotes 0 [r] 16) ∧
      (¬∃ r : NoteRecord, r.StandsAt cutOffNotes 16) ∧
      NoteTable.parse cutOffNotes =
        .error (.malformedNote 21 "descriptor size 0x1 exceeds remaining 0x0 bytes") := by
  obtain ⟨-, hstands, herror, -⟩ := notes_fail_at_first_refusal cutOffNotes
  let r : NoteRecord :=
    { type := 7, name := [0x41], namePadding := [0, 0, 0], descriptor := []
      descriptorPadding := [], owner := "A", encode_owner := by decide, name_lt := by decide
      descriptor_lt := by decide }
  have hrun : NoteRun cutOffNotes 0 [r] 16 :=
    .record ⟨⟨.inl (by decide), .inl (by decide)⟩, by decide⟩ .stop
  have hf : Note.FailsAt cutOffNotes 16
      (.malformedNote 21 "descriptor size 0x1 exceeds remaining 0x0 bytes") :=
    ⟨by decide, .descriptor (s := "B") (by decide) (by decide) (by decide)⟩
  exact ⟨⟨r, rfl, hrun⟩, fun hr => (hstands 16 (by decide)).1 hr _ hf,
    (herror _).2 ⟨[r], 16, hrun, hf⟩⟩

end ElfFormat
