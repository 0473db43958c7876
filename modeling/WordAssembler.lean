import WordAssembler.Assembly
import WordAssembler.Command.Arguments
import WordAssembler.Command.FileTree
import WordAssembler.Command.Path
import WordAssembler.Command.Plan
import WordAssembler.Command.Run
import WordAssembler.Diagnostic
import WordAssembler.Dump
import WordAssembler.Fault
import WordAssembler.Json.Quoted
import WordAssembler.Json.Token
import WordAssembler.Json.Value
import WordAssembler.LabelTable
import WordAssembler.Layout
import WordAssembler.Machine.BitField
import WordAssembler.Machine.Disassembly
import WordAssembler.Machine.Encoding
import WordAssembler.Machine.Instruction
import WordAssembler.Machine.Mnemonic
import WordAssembler.Machine.Register
import WordAssembler.Machine.Reserved
import WordAssembler.Main
import WordAssembler.Operation.Parse
import WordAssembler.Operation.Resolve
import WordAssembler.Operation.Truncation
import WordAssembler.Program
import WordAssembler.Source.Identifier
import WordAssembler.Source.LineContent
import WordAssembler.Source.Literal
import WordAssembler.Source.SourceLine
import WordAssembler.SymbolMap
import WordAssembler.Text.Blank
import WordAssembler.Text.Cut
import WordAssembler.Text.Lines
import WordAssembler.Text.Numeral
import WordAssembler.Text.Style
import WordAssembler.Proofs.BitField
import WordAssembler.Proofs.Decoding
import WordAssembler.Proofs.Layout
import WordAssembler.Proofs.Resolution
import WordAssembler.Proofs.Parsing
import WordAssembler.Proofs.Assembly
import WordAssembler.Proofs.Jump
import WordAssembler.Proofs.Lines
import WordAssembler.Proofs.Relocation
import WordAssembler.Proofs.Blanks
import WordAssembler.Proofs.Content
import WordAssembler.Proofs.Placement
import WordAssembler.Proofs.Outline
import WordAssembler.Proofs.Presentation
import WordAssembler.Proofs.Numeral
import WordAssembler.Proofs.Image
import WordAssembler.Proofs.Literal
import WordAssembler.Proofs.Grammar
import WordAssembler.Proofs.LineGrammar
import WordAssembler.Proofs.Printing
import WordAssembler.Proofs.Restating
import WordAssembler.Proofs.Reassembly
import WordAssembler.Proofs.Listing
import WordAssembler.Proofs.Renaming
import WordAssembler.Proofs.FileTree
import WordAssembler.Proofs.Run
import WordAssembler.Proofs.JsonText
import WordAssembler.Proofs.SymbolFile
import WordAssembler.Proofs.Provenance
import WordAssembler.Proofs.Immediate
import WordAssembler.Proofs.Dump
import WordAssembler.Proofs.LabelHistory
import WordAssembler.Proofs.Transcript
import WordAssembler.Proofs.Wrapping
import WordAssembler.Proofs.IdleLines
import WordAssembler.Proofs.DefaultOutput
