import Codeplug.Bits.Address
import Codeplug.Bits.Bcd
import Codeplug.Bits.Notation
import Codeplug.Bits.Offset
import Codeplug.Bits.Size
import Codeplug.Bits.Word
import Codeplug.Text.Blank
import Codeplug.Text.Lossy
import Codeplug.Text.NameChar
import Codeplug.Text.Numeral
import Codeplug.Text.Quoted
import Codeplug.Search.Bisection
import Codeplug.Image.Basic
import Codeplug.Image.Dump
import Codeplug.Markup.Element
import Codeplug.Markup.Entity
import Codeplug.Markup.Event
import Codeplug.Markup.Token
import Codeplug.Json.Binary64
import Codeplug.Json.Node
import Codeplug.Json.Printer
import Codeplug.Json.Value
import Codeplug.Pattern.Attribute
import Codeplug.Pattern.Builder
import Codeplug.Pattern.Check
import Codeplug.Pattern.Coverage
import Codeplug.Pattern.Decode
import Codeplug.Pattern.Document
import Codeplug.Pattern.Edit
import Codeplug.Pattern.File
import Codeplug.Pattern.Kind
import Codeplug.Pattern.Layout
import Codeplug.Pattern.Meta
import Codeplug.Pattern.Printer
import Codeplug.Pattern.Tree
import Codeplug.Pattern.Verify
import Codeplug.Wire.Anytone
import Codeplug.Wire.Line
import Codeplug.Wire.OpenGD77
import Codeplug.Wire.Protocol
import Codeplug.Wire.Radtel
import Codeplug.Files.Basic
import Codeplug.Files.Path
import Codeplug.Definition.Base64
import Codeplug.Definition.Basic
import Codeplug.Definition.Document
import Codeplug.Definition.File
import Codeplug.Emulator.Anytone
import Codeplug.Emulator.Collector
import Codeplug.Emulator.Creation
import Codeplug.Emulator.Device
import Codeplug.Emulator.Memory
import Codeplug.Emulator.OpenGD77
import Codeplug.Emulator.Radtel
import Codeplug.Emulator.Service
import Codeplug.Emulator.Session
import Codeplug.Main
import Codeplug.Proofs.Result
import Codeplug.Proofs.Search.Bisection
import Codeplug.Proofs.Image.Segment
import Codeplug.Proofs.Image.WellFormed
import Codeplug.Proofs.Image.Canonical
import Codeplug.Proofs.Image.History
import Codeplug.Proofs.Bits.Notation
import Codeplug.Proofs.Bits.Word
import Codeplug.Proofs.Bits.Bcd
import Codeplug.Proofs.Markup.Entity
import Codeplug.Proofs.Markup.Event
import Codeplug.Proofs.Markup.Nesting
import Codeplug.Proofs.Pattern.Attach
import Codeplug.Proofs.Pattern.Build
import Codeplug.Proofs.Pattern.Document
import Codeplug.Proofs.Pattern.Balance
import Codeplug.Proofs.Pattern.RoundTrip
import Codeplug.Proofs.Pattern.Store
import Codeplug.Proofs.Pattern.Forest
import Codeplug.Proofs.Pattern.Links
import Codeplug.Proofs.Pattern.Operation
import Codeplug.Proofs.Pattern.Walk
import Codeplug.Proofs.Pattern.Run
import Codeplug.Proofs.Pattern.Relayout
import Codeplug.Proofs.Pattern.Layout
import Codeplug.Proofs.Pattern.Rules
import Codeplug.Proofs.Pattern.Verification
import Codeplug.Proofs.Pattern.Effect
import Codeplug.Proofs.Pattern.Assembled
import Codeplug.Proofs.Pattern.WellFormed
import Codeplug.Proofs.Pattern.Verified
import Codeplug.Proofs.Pattern.Occurrence
import Codeplug.Proofs.Pattern.AddressSpace
import Codeplug.Proofs.Pattern.Decode
import Codeplug.Proofs.Pattern.Integer
import Codeplug.Proofs.Text.Lossy
import Codeplug.Proofs.Pattern.StoredText
import Codeplug.Proofs.Pattern.RawBytes
import Codeplug.Proofs.Pattern.Scope
import Codeplug.Proofs.Pattern.Insertion
import Codeplug.Proofs.Pattern.Ordered
import Codeplug.Proofs.Pattern.Reinsertion
import Codeplug.Proofs.Pattern.Overlap
import Codeplug.Proofs.Pattern.Appending
import Codeplug.Proofs.Pattern.Coverage
import Codeplug.Proofs.Pattern.ExactSize
import Codeplug.Proofs.Pattern.Settling
import Codeplug.Proofs.Pattern.Unfolding
import Codeplug.Proofs.Pattern.Saved
import Codeplug.Proofs.Pattern.Comment
import Codeplug.Proofs.Pattern.WholeNumber
import Codeplug.Proofs.Bits.Grammar
import Codeplug.Proofs.Json.Numeral
import Codeplug.Proofs.Json.Pretty
import Codeplug.Proofs.Json.Value
import Codeplug.Proofs.Definition.Base64
import Codeplug.Proofs.Definition.Member
import Codeplug.Proofs.Definition.Document
import Codeplug.Proofs.Wire.Scan
import Codeplug.Proofs.Wire.Frame
import Codeplug.Proofs.Wire.Written
import Codeplug.Proofs.Wire.Damage
import Codeplug.Proofs.Emulator.Session
import Codeplug.Proofs.Emulator.Device
import Codeplug.Proofs.Emulator.Damage
import Codeplug.Proofs.Emulator.Collector
import Codeplug.Proofs.Emulator.Service
import Codeplug.Proofs.Emulator.Anytone
import Codeplug.Proofs.Emulator.Rounds
import Codeplug.Proofs.Emulator.Recorded
import Codeplug.Proofs.Emulator.ReadOut
import Codeplug.Proofs.Emulator.Radtel
import Codeplug.Proofs.Emulator.Pages
import Codeplug.Proofs.Emulator.OpenGD77
import Codeplug.Proofs.Emulator.Section
import Codeplug.Proofs.Emulator.Isolation
import Codeplug.Proofs.Emulator.Oblivious
import Codeplug.Proofs.Definition.Layer
import Codeplug.Proofs.Bits.Offset
import Codeplug.Proofs.Pattern.Preorder
