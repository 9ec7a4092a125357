import JackVm.Text.Blank
import JackVm.Text.Decimal
import JackVm.Token
import JackVm.Token.Scanner
import JackVm.Cursor
import JackVm.VariableTable
import JackVm.Instruction
import JackVm.Sink
import JackVm.Grammar.Event
import JackVm.Grammar.Goal
import JackVm.Code.Scope
import JackVm.Log
import JackVm.Failure
import JackVm.Code.Engine
import JackVm.Code.Compilation
import JackVm.Listing
import JackVm.Files.Path
import JackVm.Files.FileSystem
import JackVm.Files.FileTree
import JackVm.Files.Session
import JackVm.CommandLine
import JackVm.Main
import JackVm.Proofs.Tree
import JackVm.Proofs.Feed
import JackVm.Proofs.Online
import JackVm.Proofs.Lockstep
import JackVm.Proofs.Descent
import JackVm.Proofs.Reading
import JackVm.Proofs.Printing
import JackVm.Proofs.Parsing
import JackVm.Proofs.Scanning
import JackVm.Proofs.Unambiguity
import JackVm.Proofs.Rules
import JackVm.Proofs.Translation
import JackVm.Proofs.Performing
import JackVm.Proofs.Acceptance
import JackVm.Proofs.Evaluation
import JackVm.Proofs.Labels
import JackVm.Proofs.Execution
import JackVm.Proofs.Routines
import JackVm.Proofs.Access
import JackVm.Proofs.Jumps
import JackVm.Proofs.Balance
import JackVm.Proofs.Symbols
import JackVm.Proofs.Stopping
import JackVm.Proofs.Invariants
import JackVm.Proofs.Viability
import JackVm.Proofs.Limits
import JackVm.Proofs.Lines
import JackVm.Proofs.Paths
import JackVm.Proofs.Parts
import JackVm.Proofs.Splitting
import JackVm.Proofs.Places
import JackVm.Proofs.Walking
import JackVm.Proofs.Filing
import JackVm.Proofs.Sources
import JackVm.Proofs.Independence
import JackVm.Proofs.History
import JackVm.Proofs.LineByLine
import JackVm.Proofs.Constants
import JackVm.Proofs.ByteOrder
import JackVm.Proofs.Searching
import JackVm.Proofs.Listings
import JackVm.Proofs.ProgramText
import JackVm.Proofs.Productions
import JackVm.Proofs.Positions
import JackVm.Proofs.Renaming
import JackVm.Proofs.Messages
import JackVm.Proofs.Faults
