import Tricolor.Fault
import Tricolor.Layout
import Tricolor.Object
import Tricolor.Config
import Tricolor.Zeroed
import Tricolor.Bitmap
import Tricolor.FreeRuns
import Tricolor.GreyStack
import Tricolor.FinalizerRegister
import Tricolor.BlockTable
import Tricolor.InternTable
import Tricolor.Arena
import Tricolor.Arena.Sweep
import Tricolor.Space
import Tricolor.Space.Placement
import Tricolor.Space.Marking
import Tricolor.Space.Registration
import Tricolor.Space.Reclaiming
import Tricolor.Space.Contents
import Tricolor.Heap
import Tricolor.Heap.Barrier
import Tricolor.Mutator
import Tricolor.Collector
import Tricolor.Session.Space
import Tricolor.Session.Command
import Tricolor.Session.World
import Tricolor.Session.Heap
import Tricolor.Proofs.Moves
import Tricolor.Proofs.Renewals
import Tricolor.Proofs.Accounting
import Tricolor.Proofs.Integrity
import Tricolor.Proofs.Termination
import Tricolor.Proofs.Program.Soundness
import Tricolor.Proofs.Program.Colours
import Tricolor.Proofs.Program.WeakTables
import Tricolor.Proofs.Arena.History
import Tricolor.Proofs.Handouts
import Tricolor.Proofs.Program.Finalizers
import Tricolor.Proofs.Program.Exactness
import Tricolor.Proofs.ActiveTrace
import Tricolor.Proofs.Pacing
import Tricolor.Proofs.Refusals
import Tricolor.Proofs.ArenaSweep
import Tricolor.Proofs.BestFit
import Tricolor.Proofs.Resizing
import Tricolor.Proofs.SmallObjects
import Tricolor.Proofs.Queueing
import Tricolor.Proofs.ExactRegister
import Tricolor.Proofs.LinkSet
import Tricolor.Proofs.StringSweep
import Tricolor.Proofs.BlockMap
import Tricolor.Proofs.Arithmetic
import Tricolor.Proofs.SpareArenas
import Tricolor.Proofs.GenerationalSweep
import Tricolor.Proofs.WordScan
import Tricolor.Proofs.HugeQueue
import Tricolor.Proofs.Registries
