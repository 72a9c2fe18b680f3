import TapeLang.Program.Printer
import TapeLang.Stream.Cursor
import TapeLang.Stream.Buffered
import TapeLang.Stream.Channel
import TapeLang.Stream.Script
import TapeLang.Interpreter
import TapeLang.LabelCode.Listing
import TapeLang.Routine
import TapeLang.Assembler
import TapeLang.Execution
import TapeLang.CommandLine.Simulation
import TapeLang.Diagnostic
import TapeLang.Job
import TapeLang.Executable
import TapeLang.Main
import TapeLang.Proofs.Course
import TapeLang.Proofs.Tree.Basic
import TapeLang.Proofs.Tree.Semantics
import TapeLang.Proofs.Tree.Simulation
import TapeLang.Proofs.Tree.Interpreter
import TapeLang.Proofs.Tree.Alike
import TapeLang.Proofs.Tree.Parser
import TapeLang.Proofs.Tree.Meaning
import TapeLang.Proofs.X86.Cpu
import TapeLang.Proofs.X86.Decode
import TapeLang.Proofs.Layout
import TapeLang.Proofs.Native.Machine
import TapeLang.Proofs.Native.Body
import TapeLang.Proofs.Tree.LabelCode
import TapeLang.Proofs.X86.Stack
import TapeLang.Proofs.Native.Call
import TapeLang.Proofs.Native.Program
import TapeLang.Proofs.Native.Hook
import TapeLang.Proofs.Native.Hosted
import TapeLang.Proofs.Elf
import TapeLang.Proofs.Native.System
import TapeLang.Proofs.Native.Process
import TapeLang.Proofs.Native.Mirror
import TapeLang.Proofs.Native.Standalone
import TapeLang.Proofs.Source.Brackets
import TapeLang.Proofs.Source.Blocks
import TapeLang.Proofs.Source.NormalForm
import TapeLang.Proofs.Source.RoundTrip
import TapeLang.Proofs.Source.Faults
import TapeLang.Proofs.Interpreter
import TapeLang.Proofs.Source.WellFormed
import TapeLang.Proofs.LabelCode.Listing
import TapeLang.Proofs.LabelCode.Machine
import TapeLang.Proofs.LabelCode.Program
import TapeLang.Proofs.X86.Writes
import TapeLang.Proofs.Native.Safety
import TapeLang.Proofs.Native.Steady
import TapeLang.Proofs.Native.Contract
import TapeLang.Proofs.Trace
import TapeLang.Proofs.Streams.Protocol
import TapeLang.Proofs.Streams.Engine
import TapeLang.Proofs.Streams.Fault
import TapeLang.Proofs.Streams.Interpreter
import TapeLang.Proofs.Streams.Routine
import TapeLang.Proofs.Streams.Discipline
import TapeLang.Proofs.Correspondence
import TapeLang.Proofs.Engine
import TapeLang.Proofs.Tree.Surroundings
import TapeLang.Proofs.Streams.Bytes
import TapeLang.Proofs.Streams.Channel
import TapeLang.Proofs.Streams.Inputs
import TapeLang.Proofs.Streams.Consumption
import TapeLang.Proofs.Sequel
import TapeLang.Proofs.Source.Sequence
import TapeLang.Proofs.Symmetry.Tape
import TapeLang.Proofs.Symmetry.Runs
import TapeLang.Proofs.Symmetry.Source
import TapeLang.Proofs.Source.Positions
import TapeLang.Proofs.Matching
import TapeLang.Proofs.LoopStack
import TapeLang.Proofs.LabelCode.Flat
import TapeLang.Proofs.MachineCode.Resolved
import TapeLang.Proofs.MachineCode.Blocks
import TapeLang.Proofs.MachineCode.Places
import TapeLang.Proofs.MachineCode.Layout
import TapeLang.Proofs.Source.Shortest
import TapeLang.Proofs.Source.Size
import TapeLang.Proofs.Assembler.Fields
import TapeLang.Proofs.Assembler.Finish
import TapeLang.Proofs.Assembler.Renaming
import TapeLang.Proofs.Assembler.Lowering
import TapeLang.Proofs.Assembler.Start
import TapeLang.Proofs.LabelCode.Emitter
import TapeLang.Proofs.Counting.Sites
import TapeLang.Proofs.Counting.Runs
import TapeLang.Proofs.Counting.Charts
import TapeLang.Proofs.Counting.Passes
import TapeLang.Proofs.Source.Lines
import TapeLang.Proofs.Carets
import TapeLang.Proofs.Files.Paths
import TapeLang.Proofs.Files.Artifact
import TapeLang.Proofs.Checked
import TapeLang.Proofs.Movement
