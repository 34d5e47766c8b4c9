import CellChain.Text.Printable
import CellChain.Text.Notice
import CellChain.Text.Quoted
import CellChain.Text.Decimal
import CellChain.Text.Width
import CellChain.Text.Grid
import CellChain.Text.Moment
import CellChain.Ty.Basic
import CellChain.Ty.Parser
import CellChain.Target
import CellChain.Abort
import CellChain.Layout.Leaf
import CellChain.Layout.Position
import CellChain.Machine.Cell
import CellChain.Machine.Exec
import CellChain.Code.Instr
import CellChain.Code.Emitter
import CellChain.Code.Default
import CellChain.Code.Codec
import CellChain.Code.Record
import CellChain.Code.Script
import CellChain.Digest.Sha256
import CellChain.Contract.Basic
import CellChain.Contract.Diagnostic
import CellChain.Contract.Check
import CellChain.Contract.Dump
import CellChain.Contract.Lineage
import CellChain.Settings.Basic
import CellChain.Settings.Read
import CellChain.Program.Basic
import CellChain.Program.Lower
import CellChain.Path
import CellChain.Workspace
import CellChain.Yaml.Token
import CellChain.Yaml.Cursor
import CellChain.Yaml.Lexer
import CellChain.Yaml.Node
import CellChain.Yaml.Scalar
import CellChain.Description.Basic
import CellChain.Description.Decode
import CellChain.Description.Sources
import CellChain.Description.Structs
import CellChain.Description.Unit
import CellChain.Toml.Rule
import CellChain.Toml.Grammar
import CellChain.Toml.Document
import CellChain.Command.Arguments
import CellChain.Command.Run
import CellChain.Main
import CellChain.Proofs.Emission
import CellChain.Proofs.Execution
import CellChain.Proofs.Groups
import CellChain.Proofs.StackModel
import CellChain.Proofs.Outcomes
import CellChain.Proofs.Reading
import CellChain.Proofs.Rearranging
import CellChain.Proofs.Typing
import CellChain.Proofs.Chains
import CellChain.Proofs.Storing
import CellChain.Proofs.Loading
import CellChain.Proofs.ChainRoundTrip
import CellChain.Proofs.Lowered
import CellChain.Proofs.Fragments
import CellChain.Proofs.ProgramRoundTrips
import CellChain.Proofs.Harmless
import CellChain.Proofs.OperandLimits
import CellChain.Proofs.Completion
import CellChain.Proofs.CodecEvents
import CellChain.Proofs.CodecCompletion
import CellChain.Proofs.DictionaryValues
import CellChain.Proofs.FragmentCompletion
import CellChain.Proofs.SignatureChecks
import CellChain.Proofs.LoadedTypes
import CellChain.Proofs.GatedLowering
import CellChain.Proofs.WireLayout
import CellChain.Proofs.LayoutTables
import CellChain.Proofs.Capacity
import CellChain.Proofs.Lineages
import CellChain.Proofs.LoadedLinks
import CellChain.Proofs.Overriding
import CellChain.Proofs.ExactReading
import CellChain.Proofs.Following
import CellChain.Proofs.SliceAcceptance
import CellChain.Proofs.RecordAcceptance
import CellChain.Proofs.Defaults
import CellChain.Proofs.ValidatedLimits
import CellChain.Proofs.Ancestry
import CellChain.Proofs.Paths
import CellChain.Proofs.Imports
import CellChain.Proofs.Descent
import CellChain.Proofs.Spelling
import CellChain.Proofs.LoadingEnds
import CellChain.Proofs.AbiVersions
import CellChain.Proofs.FragmentNames
import CellChain.Proofs.TypeGrammar
import CellChain.Proofs.TypeReading
import CellChain.Proofs.ListedCode
import CellChain.Proofs.Listings
import CellChain.Proofs.Congruence
import CellChain.Proofs.Precedence
import CellChain.Proofs.Histories
import CellChain.Proofs.CodecAborts
import CellChain.Proofs.DefaultValues
import CellChain.Proofs.PrintedTypes
import CellChain.Proofs.Signatures
import CellChain.Proofs.Construction
import CellChain.Proofs.OperandForms
import CellChain.Proofs.CallBodies
import CellChain.Proofs.NamedArguments
import CellChain.Proofs.SelfContainment
import CellChain.Proofs.LayoutGeometry
import CellChain.Proofs.StructUse
import CellChain.Proofs.LoadedStructs
import CellChain.Proofs.Collecting
import CellChain.Proofs.StructHelpers
import CellChain.Proofs.StoredIntegers
