import MacroAsm.CommandLine.Arguments
import MacroAsm.CommandLine.Run
import MacroAsm.CommandLine.Usage
import MacroAsm.Compilation
import MacroAsm.Config.Cursor
import MacroAsm.Config.Mapping
import MacroAsm.Config.Overrides
import MacroAsm.Config.Scalar
import MacroAsm.Config.Tag
import MacroAsm.Config.Token
import MacroAsm.Diagnostics.Level
import MacroAsm.Diagnostics.Message
import MacroAsm.Diagnostics.Report
import MacroAsm.Diagnostics.Style
import MacroAsm.Failure
import MacroAsm.Files.Path
import MacroAsm.Files.Tree
import MacroAsm.Isa.Form
import MacroAsm.Isa.Highlight
import MacroAsm.Isa.Instruction
import MacroAsm.Isa.Opcode
import MacroAsm.Isa.Operand
import MacroAsm.Isa.OperandKind
import MacroAsm.Isa.Register
import MacroAsm.Macros.Definition
import MacroAsm.Macros.Expansion
import MacroAsm.Macros.Matching
import MacroAsm.Macros.Opener
import MacroAsm.Macros.Placeholder
import MacroAsm.Macros.Reader
import MacroAsm.Macros.Size
import MacroAsm.Main
import MacroAsm.Memory.Allocator
import MacroAsm.Memory.Assignment
import MacroAsm.Memory.Layout
import MacroAsm.Numeral
import MacroAsm.Options
import MacroAsm.Program.CodeLines
import MacroAsm.Program.Dump
import MacroAsm.Program.Linking
import MacroAsm.Program.Listing
import MacroAsm.Program.Resolution
import MacroAsm.Program.Statement
import MacroAsm.Proofs.CommandLine.Outcomes
import MacroAsm.Proofs.Compilation.AnnotatedText
import MacroAsm.Proofs.Compilation.ExitLevels
import MacroAsm.Proofs.Compilation.IgnoredDirectives
import MacroAsm.Proofs.Compilation.Instructions
import MacroAsm.Proofs.Compilation.LowerCase
import MacroAsm.Proofs.Compilation.NativeText
import MacroAsm.Proofs.Compilation.Positions
import MacroAsm.Proofs.Compilation.Readers
import MacroAsm.Proofs.Compilation.Stages
import MacroAsm.Proofs.Compilation.UsedVariables
import MacroAsm.Proofs.Compilation.WellFormed
import MacroAsm.Proofs.Diagnostics.Positions
import MacroAsm.Proofs.Files.Changes
import MacroAsm.Proofs.Files.Directories
import MacroAsm.Proofs.Files.Names
import MacroAsm.Proofs.Isa.Instructions
import MacroAsm.Proofs.Isa.Machine
import MacroAsm.Proofs.Isa.NativeForms
import MacroAsm.Proofs.Isa.NumeralGrammar
import MacroAsm.Proofs.Isa.OperandShapes
import MacroAsm.Proofs.Macros.ArgumentClosers
import MacroAsm.Proofs.Macros.BlankLines
import MacroAsm.Proofs.Macros.Closer
import MacroAsm.Proofs.Macros.Definitions
import MacroAsm.Proofs.Macros.DepthFirst
import MacroAsm.Proofs.Macros.Forest
import MacroAsm.Proofs.Macros.Matching
import MacroAsm.Proofs.Macros.Nesting
import MacroAsm.Proofs.Macros.Nonempty
import MacroAsm.Proofs.Macros.Pieces
import MacroAsm.Proofs.Macros.Placeholders
import MacroAsm.Proofs.Macros.Runs
import MacroAsm.Proofs.Macros.SharedClosers
import MacroAsm.Proofs.Macros.SolidOperands
import MacroAsm.Proofs.Macros.Uses
import MacroAsm.Proofs.Macros.WrittenClosers
import MacroAsm.Proofs.Macros.WrittenFiles
import MacroAsm.Proofs.Macros.WrittenMacros
import MacroAsm.Proofs.Memory.Addressed
import MacroAsm.Proofs.Memory.Banks
import MacroAsm.Proofs.Memory.Blocks
import MacroAsm.Proofs.Memory.ExplicitAddresses
import MacroAsm.Proofs.Memory.Placement
import MacroAsm.Proofs.Memory.Requests
import MacroAsm.Proofs.Memory.Search
import MacroAsm.Proofs.Memory.Sections
import MacroAsm.Proofs.Memory.UsedNames
import MacroAsm.Proofs.Memory.Variables
import MacroAsm.Proofs.Program.Admission
import MacroAsm.Proofs.Program.BlankLines
import MacroAsm.Proofs.Program.Labelling
import MacroAsm.Proofs.Program.Reading
import MacroAsm.Proofs.Program.Statements
import MacroAsm.Proofs.Source.Discovery
import MacroAsm.Proofs.Source.Inclusion
import MacroAsm.Proofs.Source.Positions
import MacroAsm.Proofs.Source.Segments
import MacroAsm.Proofs.Source.UnknownDirectives
import MacroAsm.Proofs.Source.WrittenLines
import MacroAsm.Proofs.Target.Assembly
import MacroAsm.Proofs.Target.CLoop
import MacroAsm.Proofs.Target.CMeaning
import MacroAsm.Proofs.Target.CReading
import MacroAsm.Proofs.Target.CSteps
import MacroAsm.Proofs.Target.NasmAgreement
import MacroAsm.Proofs.Target.NasmBlocks
import MacroAsm.Proofs.Target.NasmLabels
import MacroAsm.Proofs.Target.NasmLines
import MacroAsm.Proofs.Target.NasmLoading
import MacroAsm.Proofs.Target.NasmReading
import MacroAsm.Proofs.Target.NasmRoutines
import MacroAsm.Proofs.Target.NasmState
import MacroAsm.Proofs.Target.NasmSteps
import MacroAsm.Proofs.Target.NasmTemplate
import MacroAsm.Proofs.Target.NasmText
import MacroAsm.Proofs.Template.Injective
import MacroAsm.Proofs.Template.Places
import MacroAsm.Proofs.Text.Lines
import MacroAsm.Proofs.X86.Loading
import MacroAsm.Proofs.X86.Memory
import MacroAsm.Proofs.X86.Processor
import MacroAsm.Proofs.X86.Reading
import MacroAsm.Registry
import MacroAsm.Source.Includes
import MacroAsm.Source.Line
import MacroAsm.Target.CFamily
import MacroAsm.Target.Nasm
import MacroAsm.Target.Native
import MacroAsm.Target.Output
import MacroAsm.Target.Target
import MacroAsm.Template
import MacroAsm.Template.Builtin
import MacroAsm.Text.Blank
import MacroAsm.Text.Case
import MacroAsm.Text.CaseTable
import MacroAsm.Text.Column
import MacroAsm.Text.Cut
import MacroAsm.Text.Lines
import MacroAsm.Text.Shape
