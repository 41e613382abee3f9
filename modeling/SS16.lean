import SS16.Main
import SS16.Proofs.Results
import SS16.Proofs.Source.Names
import SS16.Proofs.Layout.Growth
import SS16.Proofs.Layout.Run
import SS16.Proofs.Layout.Places
import SS16.Proofs.Layout.Numbers
import SS16.Proofs.Layout.Program
import SS16.Proofs.Emission.Fragments
import SS16.Proofs.Emission.References
import SS16.Proofs.Emission.Sweep
import SS16.Proofs.Addresses
import SS16.Proofs.Source.Sizes
import SS16.Proofs.Layout.Checks
import SS16.Proofs.EncodingFaults
import SS16.Proofs.Emission.Relocations
import SS16.Proofs.EntryNumbers
import SS16.Proofs.Along
import SS16.Proofs.Placeholders
import SS16.Proofs.Disassembly
import SS16.Proofs.Source.Declarations
import SS16.Proofs.Layout.Admission
import SS16.Proofs.Layout.Acceptance
import SS16.Proofs.Declarations
import SS16.Proofs.Emission.Renumbering
import SS16.Proofs.Layout.Blocks
import SS16.Proofs.Emission.Blocks
import SS16.Proofs.Source.Blocks
import SS16.Proofs.SectionOrder
import SS16.Proofs.Tiling
import SS16.Proofs.Object.Rows
import SS16.Proofs.Object.Blocks
import SS16.Proofs.ObjectText
import SS16.Proofs.Layout.Exports
import SS16.Proofs.ExportPosition
import SS16.Proofs.Renaming.Program
import SS16.Proofs.Renaming.Text
import SS16.Proofs.Renaming.Layout
import SS16.Proofs.Renaming.Emission
import SS16.Proofs.Renaming
import SS16.Proofs.Layout.Stops
import SS16.Proofs.Completion
import SS16.Proofs.Diagnosis
import SS16.Proofs.Object.YamlNames
import SS16.Proofs.Object.YamlLines
import SS16.Proofs.ObjectYaml
import SS16.Proofs.Source.Literals
import SS16.Proofs.Source.OperandWords
import SS16.Proofs.Source.Keywords
import SS16.Proofs.OperandGrammar
import SS16.Proofs.LiteralSpellings
import SS16.Proofs.InstructionWord
import SS16.Proofs.Emission.ExtraWords
import SS16.Proofs.InstructionEncoding
import SS16.Proofs.Shorthands.Instructions
import SS16.Proofs.Shorthands
import SS16.Proofs.CommandLine.Writing
import SS16.Proofs.CommandLine.Runs
import SS16.Proofs.Layout.Sightings
import SS16.Proofs.SightingOrder
import SS16.Proofs.Source.TextFaults
import SS16.Proofs.UndeclaredNames
import SS16.Proofs.RowWords
import SS16.Proofs.Source.Spacing
import SS16.Proofs.RowSpacing
import SS16.Proofs.Emission.Appending
import SS16.Proofs.Source.Fronts
import SS16.Proofs.FailedSweep
import SS16.Proofs.Emission.Elements
import SS16.Proofs.DataNumbers
import SS16.Proofs.Layout.Splitting
import SS16.Proofs.Emission.Splitting
import SS16.Proofs.DataSplitting
import SS16.Proofs.NumberSyntax
import SS16.Proofs.DigitPairs
import SS16.Proofs.Alignment
import SS16.Proofs.EndOfSource
import SS16.Proofs.PrintedListing
