import CrossAsm.Text.Position
import CrossAsm.Text.Numeral
import CrossAsm.Diagnostic.Report
import CrossAsm.Token.Basic
import CrossAsm.Token.Stream
import CrossAsm.Token.Window
import CrossAsm.Program.Operation
import CrossAsm.Program.Mnemonic
import CrossAsm.Program.Listing
import CrossAsm.Program.Reading
import CrossAsm.Program.Line
import CrossAsm.Program.Source
import CrossAsm.Arch
import CrossAsm.Fault
import CrossAsm.Symbol.Table
import CrossAsm.Code.Buffer
import CrossAsm.Code.Relocation
import CrossAsm.Code.Layout
import CrossAsm.Code.Emission
import CrossAsm.Mcs51.Instr
import CrossAsm.Mcs51.Ram
import CrossAsm.Mcs51.Size
import CrossAsm.Mcs51.Lowering
import CrossAsm.X64.Register
import CrossAsm.X64.Instr
import CrossAsm.X64.Data
import CrossAsm.X64.Division
import CrossAsm.X64.Size
import CrossAsm.X64.Lowering
import CrossAsm.Image
import CrossAsm.Generation
import CrossAsm.Assembly
import CrossAsm.Files.Path
import CrossAsm.Files.Access
import CrossAsm.Files.Disk
import CrossAsm.Files.Assembly
import CrossAsm.Command.Options
import CrossAsm.Command.Dump
import CrossAsm.Command.Run
import CrossAsm.Main
import CrossAsm.Proofs.Checked
import CrossAsm.Proofs.Pass
import CrossAsm.Proofs.SymbolTable
import CrossAsm.Proofs.Placement
import CrossAsm.Proofs.Declarations
import CrossAsm.Proofs.Mcs51.Ram
import CrossAsm.Proofs.Emission
import CrossAsm.Proofs.CodeBuffer
import CrossAsm.Proofs.Steps
import CrossAsm.Proofs.Mcs51.CodeSize
import CrossAsm.Proofs.Generation
import CrossAsm.Proofs.X64.CodeSize
import CrossAsm.Proofs.Relocation
import CrossAsm.Proofs.PassAgreement
import CrossAsm.Proofs.Mcs51.Emission
import CrossAsm.Proofs.X64.Emission
import CrossAsm.Proofs.X64.Sites
import CrossAsm.Proofs.X64.Data
import CrossAsm.Proofs.X64.References
import CrossAsm.Proofs.Attribution
import CrossAsm.Proofs.Mcs51.Transfers
import CrossAsm.Proofs.Mcs51.Attribution
import CrossAsm.Proofs.X64.Attribution
import CrossAsm.Proofs.SizeParity
import CrossAsm.Proofs.InitialData
import CrossAsm.Proofs.Refusal
import CrossAsm.Proofs.Operands
import CrossAsm.Proofs.Mcs51.Encodable
import CrossAsm.Proofs.Mcs51.Acceptance
import CrossAsm.Proofs.X64.Encodable
import CrossAsm.Proofs.X64.Acceptance
import CrossAsm.Proofs.Numeral
import CrossAsm.Proofs.Position
import CrossAsm.Proofs.Reading
import CrossAsm.Proofs.Scanning
import CrossAsm.Proofs.Faultless
import CrossAsm.Proofs.Listing
import CrossAsm.Proofs.X64.Decoder
import CrossAsm.Proofs.X64.Disassembly
import CrossAsm.Proofs.Mcs51.Effects
import CrossAsm.Proofs.Guarded.Basic
import CrossAsm.Proofs.Guarded.Generation
import CrossAsm.Proofs.Guarded.Passes
import CrossAsm.Proofs.Guarded.Mcs51
import CrossAsm.Proofs.Guarded.X64
import CrossAsm.Proofs.Guarded.Agreement
import CrossAsm.Proofs.Guarded.Safety
import CrossAsm.Proofs.Decision
import CrossAsm.Proofs.LineGrammar
import CrossAsm.Proofs.SourceGrammar
import CrossAsm.Proofs.Mcs51.Decoder
import CrossAsm.Proofs.Mcs51.Disassembly
import CrossAsm.Proofs.Harmony
import CrossAsm.Proofs.Lexing
import CrossAsm.Proofs.Moved
import CrossAsm.Proofs.FaultPlaces
import CrossAsm.Proofs.ReportLines
import CrossAsm.Proofs.LineByLine
import CrossAsm.Proofs.Diagnostics
import CrossAsm.Proofs.Padding
import CrossAsm.Proofs.Transcription
import CrossAsm.Proofs.Mcs51.Transcription
import CrossAsm.Proofs.X64.Transcription
import CrossAsm.Proofs.Renaming
import CrossAsm.Proofs.DeclarationOrder
import CrossAsm.Proofs.Behind
import CrossAsm.Proofs.X64.Concatenation
import CrossAsm.Proofs.Mcs51.Targets
import CrossAsm.Proofs.Mcs51.Processor
import CrossAsm.Proofs.Mcs51.Comparison
import CrossAsm.Proofs.X64.Machine
import CrossAsm.Proofs.X64.Division
import CrossAsm.Proofs.SourceTokens
import CrossAsm.Proofs.X64.Comparison
import CrossAsm.Proofs.WindowOrder
import CrossAsm.Proofs.Comments
import CrossAsm.Proofs.ReadingEnds
import CrossAsm.Proofs.Allocation
import CrossAsm.Proofs.SymbolSessions
import CrossAsm.Proofs.Resolution
import CrossAsm.Proofs.Offsets
import CrossAsm.Proofs.Literals
import CrossAsm.Proofs.Stems
import CrossAsm.Proofs.OutputFile
