import JarvisOS.Console.Agent
import JarvisOS.Console.Calc
import JarvisOS.Console.Keyboard
import JarvisOS.Console.Pipeline
import JarvisOS.Foundations.Controller
import JarvisOS.Foundations.Reach
import JarvisOS.Foundations.Segments
import JarvisOS.Foundations.Simulation
import JarvisOS.Foundations.Traces
import JarvisOS.Foundations.Translation
import JarvisOS.Heap.Contents
import JarvisOS.Heap.Freeing
import JarvisOS.Heap.Magic
import JarvisOS.Heap.Oversized
import JarvisOS.Kernel.Exceptions
import JarvisOS.Kernel.FailedGrowth
import JarvisOS.Kernel.FailedMapping
import JarvisOS.Kernel.ForeignBytes
import JarvisOS.Kernel.HeapInRam
import JarvisOS.Kernel.HeapMapped
import JarvisOS.Kernel.Interrupts
import JarvisOS.Kernel.Irq
import JarvisOS.Kernel.Timer
import JarvisOS.Physical.Counting
import JarvisOS.Physical.MapWalk
import JarvisOS.Physical.Mmu
import JarvisOS.Physical.Reserved
import JarvisOS.Physical.WholeFrames
import JarvisOS.Tasks.Preemption
import JarvisOS.Tasks.Starvation
import JarvisOS.Tasks.Transparency
import JarvisOS.Tasks.Yield
import JarvisOS.Tools.Screenshot
import JarvisOS.Foundations.GateTable
import JarvisOS.Kernel.Gates
import JarvisOS.Tasks.Fairness
import JarvisOS.Console.Serial
import JarvisOS.Console.Session
import JarvisOS.Kernel.Boot
