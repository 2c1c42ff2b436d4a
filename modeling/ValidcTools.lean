import ValidcTools.Bre.Rules
import ValidcTools.Bre.Flat
import ValidcTools.Bre.Bounds
import ValidcTools.Bre.Numbering
import ValidcTools.Lib.KeyOrder
import ValidcTools.Grep.Literal
import ValidcTools.Grep.LineEnd
import ValidcTools.Grep.Selection
import ValidcTools.Grep.Match
import ValidcTools.Bre.Language
import ValidcTools.Bre.Pattern
import ValidcTools.Bre.Search
import ValidcTools.Bre.Rows
import ValidcTools.Lib.Greedy
import ValidcTools.Bre.Refinement
import ValidcTools.Bre.Captures
import ValidcTools.Bre.Errors
import ValidcTools.Ed.Input
import ValidcTools.Lib.Cells
import ValidcTools.Ed.Address
import ValidcTools.Ed.Lines
import ValidcTools.Ed.Execute
import ValidcTools.Ed.RoundTrip
import ValidcTools.Ed.Prefix
import ValidcTools.Ed.Addresses
import ValidcTools.Ed.Ranges
import ValidcTools.Ed.Operands
import ValidcTools.Ed.Effects
import ValidcTools.Ed.Runs
import ValidcTools.Ed.Saved
import ValidcTools.Ed.Identity
import ValidcTools.Ed.Marks
import ValidcTools.Ed.Failure
import ValidcTools.Ed.Delivery
import ValidcTools.Chgenc.Codec
import ValidcTools.Chgenc.RoundTrip
import ValidcTools.Checkenc.Utf8
import ValidcTools.Smoltar.Sha256
import ValidcTools.Smoltar.Header
import ValidcTools.Smoltar.Archive
import ValidcTools.Smoltar.Entries
import ValidcTools.Smoltar.RoundTrip
import ValidcTools.Smoltar.Corruption
import ValidcTools.Smoltar.Names
import ValidcTools.Smoltar.Modes
import ValidcTools.Tr.Expand
import ValidcTools.Tr.Filter
import ValidcTools.Tr.Operand
import ValidcTools.Tr.Documented
import ValidcTools.Batch.Store
import ValidcTools.Batch.Expansion
import ValidcTools.Batch.Assignments
import ValidcTools.Batch.Variables
import ValidcTools.Lib.KeyedList
import ValidcTools.Batch.Commands
import ValidcTools.Batch.Execution
import ValidcTools.Sh23.Parser
import ValidcTools.Sh23.Executor
import ValidcTools.Sh23.AndOr
import ValidcTools.Sh23.Tokenizer
import ValidcTools.Sh23.Separators
import ValidcTools.Sh23.Substitutions
import ValidcTools.Sh23.Builtins
import ValidcTools.Sh23.Loops
import ValidcTools.Sed.Commands
import ValidcTools.Sed.Separation
import ValidcTools.Sed.Execution
import ValidcTools.Sed.Spaces
import ValidcTools.Sed.Cycles
import ValidcTools.Sed.Ranges
import ValidcTools.Sh23.Variables
import ValidcTools.Sh23.VariableStore
import ValidcTools.Sh23.Positions
import ValidcTools.Sh23.Backtracking
import ValidcTools.Sh23.Lexing
import ValidcTools.Sh23.IfChains
import ValidcTools.Sh23.Expansions
import ValidcTools.Sh23.Redirections
import ValidcTools.Sh23.Processes
import ValidcTools.Sh23.Lines
import ValidcTools.Vfs.Protocol
import ValidcTools.Vfs.Agreement
import ValidcTools.Lib.ParentLinks
import ValidcTools.Vfs.Inodes
import ValidcTools.Vfs.InodeTree
import ValidcTools.Vfs.Paths
import ValidcTools.Vfs.Persistence
import ValidcTools.Fat16.Calls
import ValidcTools.Fat16.Flash
import ValidcTools.Fat16.Locking
import ValidcTools.Fat16.Listing
import ValidcTools.Fat16.Removal
import ValidcTools.Fat16.ReadBack
import ValidcTools.Fat16.Images
import ValidcTools.Fat16.Sessions
import ValidcTools.Fat16.Durability
import ValidcTools.Ed.Blocks
import ValidcTools.Ed.Listing
import ValidcTools.Ed.AddressArithmetic
import ValidcTools.Ed.Search
import ValidcTools.Ed.Placement
import ValidcTools.Smoltar.Listing
import ValidcTools.Ed.GlobalSubstitution
import ValidcTools.Grep.Anchors
import ValidcTools.Batch.Quoting
import ValidcTools.Bre.Repetition
import ValidcTools.Getopt.Scan
import ValidcTools.Tr.Buffering
import ValidcTools.Tr.Options
import ValidcTools.Tr.Padding
import ValidcTools.Getopt.LongOptions
import ValidcTools.Bre.Iterations
import ValidcTools.Chgenc.Resync
import ValidcTools.Sed.Operands
import ValidcTools.Sed.Substitution
import ValidcTools.Sh23.CaseClauses
import ValidcTools.Sh23.CasePatterns
import ValidcTools.Sh23.HereDocuments
import ValidcTools.Sh23.Lists
import ValidcTools.Sh23.PositionalParams
import ValidcTools.Sh23.TestCommand
import ValidcTools.Sh23.TestExpressions
import ValidcTools.Sh23.TestStatus
import ValidcTools.Getopt.Permutation
import ValidcTools.Fnv.Update
import ValidcTools.Sh23.StringUtf8
import ValidcTools.Sh23.AffixRemoval
import ValidcTools.Sh23.CommandBuffer
import ValidcTools.Sh23.ParameterOperators
import ValidcTools.Sh23.ArithmeticReadings
import ValidcTools.Ed.Guarded
import ValidcTools.Ed.Inside
import ValidcTools.Ed.Undo
import ValidcTools.Lib.Blocks
import ValidcTools.Smoltar.Sha256Blocks
import ValidcTools.Lib.ShiftRegister
import ValidcTools.Fat16.Damage
import ValidcTools.Lib.Framing
import ValidcTools.Vfs.Server
import ValidcTools.Chgenc.Composition
import ValidcTools.Checkenc.Detection
import ValidcTools.Grep.Run
import ValidcTools.Vfs.Streams
import ValidcTools.Fnv.Database
