import FoolLang.CommandLine.Transcript
import FoolLang.Compile
import FoolLang.Diagnostic.Listing
import FoolLang.Grammar.Declaration
import FoolLang.Machine.Assembly
import FoolLang.Machine.Link
import FoolLang.Machine.Run
import FoolLang.Main
import FoolLang.Scope.Resolve
import FoolLang.Text.Reader
import FoolLang.Token.Scan
import FoolLang.Tree
import FoolLang.Proofs.Token.Separated
import FoolLang.Proofs.Grammar.Programs
import FoolLang.Proofs.Grammar.Refusals
import FoolLang.Proofs.Scoping.Agreement
import FoolLang.Proofs.Scoping.Members
import FoolLang.Proofs.Scoping.Lexical
import FoolLang.Proofs.Scoping.Bare
import FoolLang.Proofs.Scoping.Locality
import FoolLang.Proofs.Scoping.Idempotence
import FoolLang.Proofs.Scoping.Steady
import FoolLang.Proofs.Scoping.Contents
import FoolLang.Proofs.Semantics.Evaluation
import FoolLang.Proofs.Machine.Config
import FoolLang.Proofs.Machine.Step
import FoolLang.Proofs.Machine.Memory
import FoolLang.Proofs.Machine.Onward
import FoolLang.Proofs.Machine.Timeline
import FoolLang.Proofs.Machine.Trace
import FoolLang.Proofs.Code.Layout
import FoolLang.Proofs.Static.Judgement
import FoolLang.Proofs.Static.Problems
import FoolLang.Proofs.Scoping.Redecoration
import FoolLang.Proofs.Scoping.Offsets
import FoolLang.Proofs.Static.Resolved
import FoolLang.Proofs.Static.Decorated
import FoolLang.Proofs.Static.Checked
import FoolLang.Proofs.Static.Reports
import FoolLang.Proofs.Static.Subtyping
import FoolLang.Proofs.Static.Inversion
import FoolLang.Proofs.Static.Phases
import FoolLang.Proofs.Static.Receivers
import FoolLang.Proofs.Static.Declarative
import FoolLang.Proofs.Static.Modularity
import FoolLang.Proofs.Code.Linking
import FoolLang.Proofs.Code.Addresses
import FoolLang.Proofs.Code.Lowered
import FoolLang.Proofs.Code.Structured
import FoolLang.Proofs.Code.Entries
import FoolLang.Proofs.Static.Written
import FoolLang.Proofs.Simulation.World
import FoolLang.Proofs.Simulation.Fragments
import FoolLang.Proofs.Simulation.Situation
import FoolLang.Proofs.Simulation.Sites
import FoolLang.Proofs.Simulation.Expressions
import FoolLang.Proofs.Simulation.Arguments
import FoolLang.Proofs.Simulation.Scopes
import FoolLang.Proofs.Simulation.Calls
import FoolLang.Proofs.Simulation.Routines
import FoolLang.Proofs.Simulation.Programs
import FoolLang.Proofs.Simulation.Preservation
import FoolLang.Proofs.Simulation.Tables
import FoolLang.Proofs.Simulation.Safety
import FoolLang.Proofs.Simulation.Convention
import FoolLang.Proofs.Semantics.Depth
import FoolLang.Proofs.Machine.Assembly
import FoolLang.Proofs.Machine.Snapshot
import FoolLang.Proofs.Simulation.Heap
import FoolLang.Proofs.Simulation.Objects
import FoolLang.Proofs.Simulation.Comparisons
import FoolLang.Proofs.Renaming.Compilation
import FoolLang.Proofs.Static.Joins
import FoolLang.Proofs.Grammar.Termination
import FoolLang.Proofs.Grammar.Earliest
import FoolLang.Proofs.Static.Mismatches
import FoolLang.Proofs.Static.Pointing
