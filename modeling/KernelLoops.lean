import KernelLoops.Main
import KernelLoops.Proofs.BlockedNests
import KernelLoops.Proofs.BroadcastSums
import KernelLoops.Proofs.ColorRuns
import KernelLoops.Proofs.EnclosedLoops
import KernelLoops.Proofs.Fusing
import KernelLoops.Proofs.LoopRanges
import KernelLoops.Proofs.MachineTraces
import KernelLoops.Proofs.ParallelLoops
import KernelLoops.Proofs.ReplacedLoops
import KernelLoops.Proofs.ScratchLayout
import KernelLoops.Proofs.SteppedBuffers
import KernelLoops.Proofs.Strides
