import ElfFormat.Demangle
import ElfFormat.Draft
import ElfFormat.Load
import ElfFormat.Proofs.Acceptance
import ElfFormat.Proofs.Guard
import ElfFormat.Proofs.Isolation
import ElfFormat.Proofs.Layout
import ElfFormat.Proofs.Tables
import ElfFormat.Proofs.Window
import ElfFormat.Proofs.NoteGrammar
import ElfFormat.Proofs.Codec
import ElfFormat.Proofs.Placement
import ElfFormat.Proofs.RoundTrip
import ElfFormat.Proofs.OrderRuns
import ElfFormat.Proofs.Patch
import ElfFormat.Proofs.TableContents
import ElfFormat.Proofs.Deferral
import ElfFormat.Proofs.ExtendedNumbering
import ElfFormat.Proofs.Alignment
import ElfFormat.Proofs.Machine.Word
import ElfFormat.Proofs.Machine.Window
import ElfFormat.Proofs.Machine.Record
import ElfFormat.Proofs.Machine.Payload
import ElfFormat.Proofs.Machine.Object
import ElfFormat.Proofs.Machine.Decoder
import ElfFormat.Proofs.RecordCodec
import ElfFormat.Proofs.Repetition
import ElfFormat.Proofs.Dispatch
import ElfFormat.Proofs.Extension
import ElfFormat.Proofs.HeaderCodec
import ElfFormat.Proofs.Subviews
import ElfFormat.Proofs.NoteFaults
import ElfFormat.Proofs.NameResolution
import ElfFormat.Proofs.Texts
import ElfFormat.Proofs.Listing
import ElfFormat.Proofs.SymbolRecords
import ElfFormat.Proofs.ShortRecords
import ElfFormat.Proofs.NameLookup
import ElfFormat.Proofs.BuildId
import ElfFormat.Proofs.AddressLookup
import ElfFormat.Proofs.OptionsJson
import ElfFormat.Proofs.Rounding
import ElfFormat.Proofs.Demangling
import ElfFormat.Proofs.Hexadecimal
import ElfFormat.Proofs.Labels
