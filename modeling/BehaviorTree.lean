import BehaviorTree.Action
import BehaviorTree.Compile
import BehaviorTree.CompileError
import BehaviorTree.Decimal.Layout
import BehaviorTree.Decimal.Nearest
import BehaviorTree.Decimal.Shortest
import BehaviorTree.Decimal.Whole
import BehaviorTree.Definition
import BehaviorTree.Demo.Basic
import BehaviorTree.Demo.Catalogue
import BehaviorTree.Demo.Concurrent
import BehaviorTree.Demo.Door
import BehaviorTree.Demo.Quadratic
import BehaviorTree.Demo.Stage
import BehaviorTree.Demo.Trace
import BehaviorTree.Entries
import BehaviorTree.Field
import BehaviorTree.Json.Document
import BehaviorTree.Json.Number
import BehaviorTree.Json.Reader
import BehaviorTree.Json.Writer
import BehaviorTree.Main
import BehaviorTree.Node
import BehaviorTree.Outcome
import BehaviorTree.Path
import BehaviorTree.Process
import BehaviorTree.Registry
import BehaviorTree.Report
import BehaviorTree.Request
import BehaviorTree.Run.Engine
import BehaviorTree.Run.InPlace
import BehaviorTree.Run.Machine
import BehaviorTree.Run.World
import BehaviorTree.Scope
import BehaviorTree.Script
import BehaviorTree.Session
import BehaviorTree.Source
import BehaviorTree.Tally
import BehaviorTree.Text.Printable
import BehaviorTree.Text.Quoted
import BehaviorTree.Trace
import BehaviorTree.Tree
import BehaviorTree.Value
import BehaviorTree.Value.Text
import BehaviorTree.Yaml.Cursor
import BehaviorTree.Yaml.Element
import BehaviorTree.Yaml.Plain
import BehaviorTree.Yaml.Reader
import BehaviorTree.Yaml.Scalar
import BehaviorTree.Yaml.Tag
import BehaviorTree.Yaml.Token
import BehaviorTree.Proofs.Decision
import BehaviorTree.Proofs.Joining
import BehaviorTree.Proofs.ParallelOutcome
import BehaviorTree.Proofs.Tables
import BehaviorTree.Proofs.Writes
import BehaviorTree.Proofs.Visible
import BehaviorTree.Proofs.Shape
import BehaviorTree.Proofs.Compiling
import BehaviorTree.Proofs.WellFormed
import BehaviorTree.Proofs.Meaning
import BehaviorTree.Proofs.Linking
import BehaviorTree.Proofs.Shadowing
import BehaviorTree.Proofs.Scoping
import BehaviorTree.Proofs.Prompt
import BehaviorTree.Proofs.Simulation
import BehaviorTree.Proofs.Preservation
import BehaviorTree.Proofs.Defects
import BehaviorTree.Proofs.FirstDefect
import BehaviorTree.Proofs.Reflection
import BehaviorTree.Proofs.ReflectedMachine
import BehaviorTree.Proofs.Dual
import BehaviorTree.Proofs.Schedules
import BehaviorTree.Proofs.ReflectedInPlace
import BehaviorTree.Proofs.Duality
import BehaviorTree.Proofs.Steps
import BehaviorTree.Proofs.Registrations
import BehaviorTree.Proofs.Groves
import BehaviorTree.Proofs.Exchanges
import BehaviorTree.Proofs.Attending
import BehaviorTree.Proofs.Threading
import BehaviorTree.Proofs.Undebugged
import BehaviorTree.Proofs.Tracing
import BehaviorTree.Proofs.Mirroring
import BehaviorTree.Proofs.Printing
import BehaviorTree.Proofs.Courses
import BehaviorTree.Proofs.Interleaving
import BehaviorTree.Proofs.Fairness
import BehaviorTree.Proofs.Launching
import BehaviorTree.Proofs.Lockstep
import BehaviorTree.Proofs.Fillings
import BehaviorTree.Proofs.Relocating
import BehaviorTree.Proofs.Rewriting
import BehaviorTree.Proofs.Neutrality
import BehaviorTree.Proofs.Grammar
import BehaviorTree.Proofs.Contents
import BehaviorTree.Proofs.Nesting
import BehaviorTree.Proofs.WrittenValues
import BehaviorTree.Proofs.WrittenDefinitions
import BehaviorTree.Proofs.Presentation
import BehaviorTree.Proofs.OwnOrder
import BehaviorTree.Proofs.Handover
import BehaviorTree.Proofs.Executors
import BehaviorTree.Proofs.ShortCircuit
import BehaviorTree.Proofs.Thresholds
import BehaviorTree.Proofs.Audience
import BehaviorTree.Proofs.Insertions
import BehaviorTree.Proofs.WriteOrder
import BehaviorTree.Proofs.PutBack
import BehaviorTree.Proofs.Dotted
import BehaviorTree.Proofs.Registered
import BehaviorTree.Proofs.Listing
import BehaviorTree.Proofs.Counting
import BehaviorTree.Proofs.Mounting
import BehaviorTree.Proofs.Spellings
import BehaviorTree.Proofs.Unrelated
import BehaviorTree.Proofs.Offers
import BehaviorTree.Proofs.Tallying
import BehaviorTree.Proofs.Failures
