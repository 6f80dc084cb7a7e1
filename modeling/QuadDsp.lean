import QuadDsp.Main
import QuadDsp.Tool.Directory
import QuadDsp.Proofs.Format.Accepted
import QuadDsp.Proofs.Format.Alike
import QuadDsp.Proofs.Machine.Bundle
import QuadDsp.Proofs.Machine.WideLoad
import QuadDsp.Proofs.Word.ErrorWord
import QuadDsp.Proofs.Machine.Safety
import QuadDsp.Proofs.Machine.Widths
import QuadDsp.Proofs.Program.Rerun
import QuadDsp.Proofs.Program.Verdict
import QuadDsp.Proofs.Word.Source
import QuadDsp.Proofs.Machine.Stacks
import QuadDsp.Proofs.Machine.Isolation
import QuadDsp.Proofs.Machine.Gather
import QuadDsp.Proofs.Machine.Predication
import QuadDsp.Proofs.Machine.Parallel
import QuadDsp.Proofs.Machine.DelaySlots
import QuadDsp.Proofs.Machine.LoopNest
import QuadDsp.Proofs.Machine.Calls
import QuadDsp.Proofs.Machine.Commands
import QuadDsp.Proofs.Machine.Failing
import QuadDsp.Proofs.Program.Alignment
import QuadDsp.Proofs.Machine.Division
import QuadDsp.Proofs.Machine.CarryChain
import QuadDsp.Proofs.Machine.ComplexResults
import QuadDsp.Proofs.Machine.Conditions
import QuadDsp.Proofs.Machine.CircularBuffer
import QuadDsp.Proofs.Machine.Skipping
import QuadDsp.Proofs.Machine.Views
import QuadDsp.Proofs.Machine.Reset
import QuadDsp.Proofs.Machine.Sticky
import QuadDsp.Proofs.Instruction.Rendered
import QuadDsp.Proofs.Operand.Places
import QuadDsp.Proofs.Instruction.Respaced
import QuadDsp.Proofs.Program.SourceLines
import QuadDsp.Proofs.Program.Settled
import QuadDsp.Proofs.Machine.Cycles
import QuadDsp.Proofs.Word.Columns
import QuadDsp.Proofs.Machine.Dump
import QuadDsp.Proofs.Machine.PolarForm
