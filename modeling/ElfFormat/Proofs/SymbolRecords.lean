import ElfFormat.Proofs.Contents
import ElfFormat.Proofs.Machine.Payload
import ElfFormat.Proofs.RecordCodec

/-!
# The symbols in the bytes of a table

A symbol table is refused for its entry size alone; what else there is to read fits, because only
whole records are counted. Each symbol then stands on the bytes of its own record
(`Symbol.StandsAt`), and as a record is written in one way only, symbols that stand on equal bytes
are equal wherever the bytes are (`Symbol.StandsAt.eq`). So a table is fixed by its whole records:
neither what is left behind them nor an entry size that is accepted has a part in it, and a table
behind another adds its symbols to those of the first (`SymbolTable.Holds.append`).
-/

namespace ElfFormat

namespace View

/-- Two tables of the same records; what follows the last whole record may differ. -/
structure SameRecords (v w : View) (size : Nat) : Prop where
  order : v.order = w.order
  count : v.length / size = w.length / size
  bytes : v.toList.take (v.length / size * size) = w.toList.take (v.length / size * size)

/-- A table that is cut in two between records. -/
structure Splits (v front back : View) (size : Nat) : Prop where
  order_front : front.order = v.order
  order_back : back.order = v.order
  between : size ∣ front.length
  bytes : v.toList = front.toList ++ back.toList

end View

/-- The symbol is what the record at an index of the view is decoded to: it is one of this class and
link, and it is written as the bytes of the record. -/
structure Symbol.StandsAt (s : Symbol) (v : View) (c : Class) (link : UInt32) (index : Nat) :
    Prop where
  decoded : ∃ record, v.subview (index * c.symbolSize) c.symbolSize = .ok record ∧
    Symbol.parse record c link = .ok s
  belongs : s.Belongs c link
  encode_eq : s.encode v.order = v.bytesAt (index * c.symbolSize) c.symbolSize

/-- Equal bytes in one order are one symbol, in whatever view and at whatever index. -/
theorem Symbol.StandsAt.eq {s s' : Symbol} {v w : View} {c : Class} {link : UInt32} {i j : Nat}
    (hs : s.StandsAt v c link i) (hs' : s'.StandsAt w c link j) (ho : v.order = w.order)
    (hb : v.bytesAt (i * c.symbolSize) c.symbolSize = w.bytesAt (j * c.symbolSize) c.symbolSize) :
    s = s' := by
  have hwrite : s.encode v.order = s'.encode v.order := by
    rw [hs.encode_eq, hb, ho, hs'.encode_eq]
  exact (Symbol.codec c link).eq_of_write hs.belongs hs'.belongs hwrite

namespace SymbolTable

/-- The table is of this view, with one symbol for each whole record of it. -/
structure Holds (t : SymbolTable) (v : View) (c : Class) (link : UInt32) : Prop where
  view_eq : t.view = v
  link_eq : t.link = link
  size : t.symbols.size = v.length / c.symbolSize
  stands : ∀ k (hk : k < t.symbols.size), t.symbols[k].StandsAt v c link k

/-- The entry size says that there is less to an entry than a record takes. -/
def Rejects (c : Class) (entrySize : UInt64) : Prop :=
  0 < entrySize.toNat ∧ entrySize.toNat < c.symbolSize

instance (c : Class) (entrySize : UInt64) : Decidable (Rejects c entrySize) :=
  inferInstanceAs (Decidable (_ ∧ _))

variable {v w : View} {c : Class} {link : UInt32}

theorem holds_ofView (v : View) (c : Class) (link : UInt32) : (ofView v c link).Holds v c link where
  view_eq := rfl
  link_eq := rfl
  size := by simp [ofView]
  stands := by
    intro k hk
    have hcount : k < v.length / c.symbolSize := by simpa [ofView] using hk
    have hfit : k * c.symbolSize + c.symbolSize ≤ v.length :=
      Nat.le_trans (add_size_le_mul hcount (Nat.le_refl _)) (Nat.div_mul_le_self _ _)
    have hlength : c.symbolSize ≤ (v.window (k * c.symbolSize) c.symbolSize).length :=
      Nat.le_of_eq (View.length_window hfit).symm
    have hget : (ofView v c link).symbols[k] =
        Symbol.ofView (v.window (k * c.symbolSize) c.symbolSize) link c := by
      simp [ofView]
    rw [hget]
    refine ⟨⟨_, View.subview_eq_window hfit, Symbol.parse_eq hlength link⟩,
      Symbol.belongs_ofView _ link c, ?_⟩
    have hwritten := Symbol.encode_ofView hlength link
    rw [View.toList_window, List.take_take, Nat.min_self] at hwritten
    exact hwritten

theorem holds_of_parse {entrySize : UInt64} {t : SymbolTable}
    (h : parse v c entrySize link = .ok t) : t.Holds v c link := by
  rw [eq_of_parse h]
  exact holds_ofView v c link

theorem parse_eq_error_iff {entrySize : UInt64} {e : Error} :
    parse v c entrySize link = .error e ↔
      Rejects c entrySize ∧ e = .invalidEntrySize "symbol" c.symbolSize entrySize.toNat := by
  rw [parse_eq, Rejects]
  split
  · next h => simp [h, eq_comm]
  · next h => simp [h]

theorem parse_of_not_rejects {entrySize : UInt64} (h : ¬Rejects c entrySize) :
    parse v c entrySize link = .ok (ofView v c link) := by
  rw [parse_eq]
  exact if_neg h

namespace Holds

variable {t t' : SymbolTable} (h : t.Holds v c link) (h' : t'.Holds w c link)
include h h'

/-- Whole records are all that a table is made of. -/
theorem symbols_eq (hs : v.SameRecords w c.symbolSize) : t.symbols = t'.symbols := by
  refine Array.ext (by rw [h.size, h'.size, hs.count]) fun k hk hk' => ?_
  have hfit : k * c.symbolSize + c.symbolSize ≤ v.length / c.symbolSize * c.symbolSize :=
    add_size_le_mul (h.size ▸ hk) (Nat.le_refl _)
  exact (h.stands k hk).eq (h'.stands k hk') hs.order (View.bytesAt_congr hs.bytes hfit)

/-- A table behind another adds its symbols. -/
theorem append {u : View} {whole : SymbolTable} (hw : whole.Holds u c link)
    (hs : u.Splits v w c.symbolSize) : whole.symbols = t.symbols ++ t'.symbols := by
  have hpos : 0 < c.symbolSize := by cases c <;> decide
  have hb := hs.bytes
  obtain ⟨count, hcount⟩ := hs.between
  have hsize : t.symbols.size = count := by rw [h.size, hcount, Nat.mul_div_cancel_left _ hpos]
  have hlength : u.length = v.length + w.length := by
    simpa using congrArg List.length hb
  have htotal : whole.symbols.size = t.symbols.size + t'.symbols.size := by
    rw [hw.size, h'.size, hsize, hlength, hcount, Nat.mul_add_div hpos]
  refine Array.ext (by rw [htotal, Array.size_append]) fun k hk hk' => ?_
  -- No record lies across the cut, so each stands on bytes of one of the two parts.
  by_cases hfirst : k < t.symbols.size
  · rw [Array.getElem_append_left hfirst]
    refine (hw.stands k hk).eq (h.stands k hfirst) hs.order_front.symm
      (View.bytesAt_append_left hb ?_)
    rw [hcount, Nat.mul_comm c.symbolSize]
    exact add_size_le_mul (hsize ▸ hfirst) (Nat.le_refl _)
  · rw [Array.getElem_append_right (Nat.le_of_not_lt hfirst)]
    have hsecond : k - t.symbols.size < t'.symbols.size := by omega
    refine (hw.stands k hk).eq (h'.stands _ hsecond) hs.order_back.symm ?_
    have hplace : k * c.symbolSize = v.length + (k - t.symbols.size) * c.symbolSize := by
      rw [hcount, ← hsize, Nat.mul_comm c.symbolSize, ← Nat.add_mul,
        Nat.add_sub_cancel' (Nat.le_of_not_lt hfirst)]
    rw [hplace]
    exact View.bytesAt_append_right hb

end Holds

end SymbolTable

open SymbolTable in
/-- Decoding a symbol table fails for its entry size only and is otherwise a symbol for each whole
record, whatever the entry size and whatever follows the last of them. A table that is cut in two
between records has the symbols of the front and then those of the back. -/
theorem symbol_tables_concatenate (c : Class) (link : UInt32) :
    (∀ v entrySize e, parse v c entrySize link = .error e ↔
      Rejects c entrySize ∧ e = .invalidEntrySize "symbol" c.symbolSize entrySize.toNat) ∧
    (∀ v entrySize, ¬Rejects c entrySize →
      ∃ t, parse v c entrySize link = .ok t ∧ t.Holds v c link) ∧
    (∀ v d e, ¬Rejects c d → ¬Rejects c e → parse v c d link = parse v c e link) ∧
    (∀ v w d e t t', v.SameRecords w c.symbolSize → parse v c d link = .ok t →
      parse w c e link = .ok t' → t.symbols = t'.symbols) ∧
    (∀ u v w d e f t first second, u.Splits v w c.symbolSize → parse u c d link = .ok t →
      parse v c e link = .ok first → parse w c f link = .ok second →
      t.symbols = first.symbols ++ second.symbols) ∧
    ∀ w v, Machine.Window.Reads w v → ∀ entrySize,
      Machine.Exact Machine.SymbolTable.Reads (Machine.symbolTable w c entrySize link)
        (parse v c entrySize link) := by
  refine ⟨fun _ _ _ => parse_eq_error_iff, ?_, ?_, ?_, ?_, ?_⟩
  · intro v entrySize h
    exact ⟨_, parse_of_not_rejects h, holds_ofView v c link⟩
  · intro v d e hd he
    rw [parse_of_not_rejects hd, parse_of_not_rejects he]
  · intro v w d e t t' hs ht ht'
    exact (holds_of_parse ht).symbols_eq (holds_of_parse ht') hs
  · intro u v w d e f t first second hs ht hfirst hsecond
    exact (holds_of_parse hfirst).append (holds_of_parse hsecond) (holds_of_parse ht) hs
  · intro w v hr entrySize
    exact Machine.symbolTable_exact hr c entrySize link

/-- Two symbols of a 32-bit file and the first three bytes of a third. -/
def cutSymbols : Image where
  bytes := ⟨#[1, 0, 0, 0, 0x10, 0, 0, 0, 4, 0, 0, 0, 0x12, 0, 1, 0,
    5, 0, 0, 0, 0x20, 0, 0, 0, 8, 0, 0, 0, 0x11, 2, 2, 0, 9, 0, 0]⟩

/-- An entry size of 8 is refused. With three others, cutting the view behind its first record cuts
the table there, and the three bytes behind the second are no symbol. -/
theorem symbol_tables_concatenate_cutSymbols :
    let front := cutSymbols.full.window 0 16
    let back := cutSymbols.full.window 16 19
    let first : Symbol := ⟨1, 0x10, 4, 0x12, 0, 1, 7, .elf32⟩
    let second : Symbol := ⟨5, 0x20, 8, 0x11, 2, 2, 7, .elf32⟩
    SymbolTable.parse front .elf32 8 7 = .error (.invalidEntrySize "symbol" 16 8) ∧
      SymbolTable.parse front .elf32 0 7 = .ok ⟨front, 7, #[first]⟩ ∧
      SymbolTable.parse back .elf32 16 7 = .ok ⟨back, 7, #[second]⟩ ∧
      ∃ both, SymbolTable.parse cutSymbols.full .elf32 24 7 = .ok both ∧
        both.symbols = #[first, second] ∧
        ∀ mode, ∃ t, Machine.symbolTable (.full cutSymbols) .elf32 24 7 mode = .ok t ∧
          t.symbols = [first, second] := by
  intro front back first second
  obtain ⟨hfails, hholds, -, -, happend, hmachine⟩ := symbol_tables_concatenate .elf32 7
  obtain ⟨both, hboth, -⟩ := hholds cutSymbols.full 24 (by decide)
  have hfront : SymbolTable.parse front .elf32 0 7 = .ok ⟨front, 7, #[first]⟩ := by decide +kernel
  have hback : SymbolTable.parse back .elf32 16 7 = .ok ⟨back, 7, #[second]⟩ := by decide +kernel
  have hsymbols : both.symbols = #[first, second] :=
    happend cutSymbols.full front back 24 0 16 both _ _
      ⟨rfl, rfl, by decide +kernel, by decide +kernel⟩ hboth hfront hback
  refine ⟨(hfails front 8 _).2 ⟨by decide, rfl⟩, hfront, hback, both, hboth, hsymbols, ?_⟩
  intro mode
  have small : cutSymbols.length < 2 ^ 63 := by decide
  have hm := hmachine _ _ (Machine.Window.full_reads small) 24
  rw [hboth] at hm
  obtain ⟨t, ht, hreads⟩ := hm.eq_ok mode
  refine ⟨t, ht, ?_⟩
  rw [hreads.symbols, hsymbols]

end ElfFormat
