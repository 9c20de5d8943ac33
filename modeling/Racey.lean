import Racey.Lib.Cells
import Racey.Lib.Descriptors
import Racey.Lib.ForkJoin
import Racey.Lib.Crew
import Racey.Lib.Frames
import Racey.Lib.Machine
import Racey.Lib.Fair
import Racey.Theorems.Mix
import Racey.Theorems.Basic
import Racey.Theorems.Guarded
import Racey.Theorems.FutexProgress
import Racey.Theorems.FutexTurns
import Racey.Theorems.ForkpipeDelivery
import Racey.Theorems.ForkpipeProgress
import Racey.Freqsyscall
import Racey.Theorems.Freqsyscall
import Racey.Lib.Barrier
import Racey.Readfile
import Racey.Theorems.Readfile
import Racey.TestPl
import Racey.Lib.Holders
import Racey.Lib.Interleave
import Racey.TcpServer
import Racey.Theorems.TestPl
import Racey.Theorems.TcpServer
import Racey.Theorems.TcpServerStreams
import Racey.TcpEpoll
import Racey.Theorems.TcpEpoll
import Racey.Loop
import Racey.Start
import Racey.GuardedStart
import Racey.Theorems.GuardedStart
import Racey.Theorems.GuardedRaces
import Racey.Theorems.Start
import Racey.Theorems.StartMain
import Racey.Signal
import Racey.Theorems.Loop
import Racey.Theorems.Signal
import Racey.Theorems.SignalMixers
import Racey.Pipes
import Racey.Theorems.ForkpipePipes
import Racey.Clonepipe
import Racey.Theorems.Clonepipe
import Racey.Theorems.ClonepipePipes
import Racey.Lib.Residues
import Racey.Theorems.MixCollisions
import Racey.Theorems.FutexPick
import Racey.Theorems.TestPlRuns
import Racey.TcpCopy
import Racey.Theorems.TcpCopy
import Racey.Theorems.TcpEpollFds
import Racey.Theorems.TcpServerSlots
import Racey.Theorems.SignalBounds
import Racey.Lib.Waits
import Racey.Theorems.GuardedProgress
import Racey.Lib.Latch
import Racey.StartBarrier
import Racey.Theorems.StartBarrier
import Racey.Theorems.StartCrew
import Racey.Theorems.StartOutcomes
import Racey.PipesRecord
import Racey.Theorems.PipesRecord
import Racey.Theorems.StartProgress
import Racey.Theorems.SignalProgress
import Racey.Theorems.SignalTally
import Racey.Theorems.StartValues
import Racey.ForkpipeWriter
import Racey.Theorems.ForkpipeWriter
import Racey.Printed
import Racey.Theorems.Printed
import Racey.Theorems.ForkpipeLines
import Racey.ReadfileBlocks
import Racey.Theorems.ReadfileBlocks
import Racey.TcpClient
import Racey.Theorems.TcpOnePiece
import Racey.Theorems.TcpClient
import Racey.Theorems.TcpClientProgress
import Racey.Theorems.TcpServerProgress
import Racey.Theorems.TcpEpollProgress
import Racey.Theorems.TcpSystem
