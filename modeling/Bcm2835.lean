import Bcm2835.Lib.TSys
import Bcm2835.Lib.Buf
import Bcm2835.Pup.Fcs
import Bcm2835.Pup.Wire
import Bcm2835.Pup.Recv
import Bcm2835.Pup.RecvSpec
import Bcm2835.Pup.RoundTrip
import Bcm2835.Pup.Theorems.Framing
import Bcm2835.Pup.Theorems.Resync
import Bcm2835.Pup.Download
import Bcm2835.Pup.Upload
import Bcm2835.Pup.UploadSpec
import Bcm2835.Pup.Parties
import Bcm2835.Pup.Line
import Bcm2835.Pup.LineSpec
import Bcm2835.Lib.Infix
import Bcm2835.Pup.Serial
import Bcm2835.Pup.Theorems.Delivery
import Bcm2835.Pup.Theorems.Agreement
import Bcm2835.Pup.Theorems.Traffic
import Bcm2835.Pup.Occurs
import Bcm2835.Pup.Theorems.Acknowledgement
import Bcm2835.Lib.Mem
import Bcm2835.Lib.Blocks
import Bcm2835.Pup.ElfLoader
import Bcm2835.Pup.Board
import Bcm2835.Pup.BoardSpec
import Bcm2835.Lib.FirstFit
import Bcm2835.Pup.ElfSpec
import Bcm2835.Pup.Theorems.Relocation
import Bcm2835.Pup.Theorems.ElfPlacement
import Bcm2835.Pup.Theorems.ElfTrust
import Bcm2835.Pup.ElfTrampoline
import Bcm2835.Pup.ElfTrampolineSpec
import Bcm2835.Pup.Theorems.ElfStub
import Bcm2835.Pup.Aeabi
import Bcm2835.Pup.AeabiSpec
import Bcm2835.Pup.Theorems.Aeabi
import Bcm2835.Pup.DownloadSpec
import Bcm2835.Pup.Theorems.ClaimRuns
import Bcm2835.Pup.Theorems.Allocation
import Bcm2835.Pup.Theorems.Boot
import Bcm2835.Pup.Theorems.Bounds
import Bcm2835.Lib.Crc
import Bcm2835.Pup.Theorems.Burst
import Bcm2835.Lib.Hex
import Bcm2835.Ubsan.Value
import Bcm2835.Ubsan.ValueSpec
import Bcm2835.Ubsan.Theorems.Division
import Bcm2835.Ubsan.Theorems.Print
import Bcm2835.Systmr
import Bcm2835.Dma.Timing
import Bcm2835.Pup.Theorems.Checksum
import Bcm2835.Lib.Arm
import Bcm2835.Lib.ArmCond
import Bcm2835.Pup.Trampoline
import Bcm2835.Pup.Theorems.FlatTrampoline
import Bcm2835.Superopt.Ppa
import Bcm2835.Superopt.PpaSpec
import Bcm2835.Superopt.PpaRuns
import Bcm2835.Superopt.Theorems.Disjoint
import Bcm2835.Superopt.Theorems.Floating
import Bcm2835.Superopt.Theorems.Capacity
import Bcm2835.Superopt.Theorems.Init
import Bcm2835.Lib.Sweep
import Bcm2835.Lib.ArmWord
import Bcm2835.Lib.Mix
import Bcm2835.Lib.Moves
import Bcm2835.Lib.Digits
import Bcm2835.Dma.Engine
import Bcm2835.Dma.Emit
import Bcm2835.Dma.Tables
import Bcm2835.Dma.Arith
import Bcm2835.Dma.EmitSpec
import Bcm2835.Dma.EngineSpec
import Bcm2835.Dma.TablesSpec
import Bcm2835.Dma.Runs
import Bcm2835.Dma.Append
import Bcm2835.Dma.Flow
import Bcm2835.Dma.Footprint
import Bcm2835.Dma.Filled
import Bcm2835.Dma.Inittab
import Bcm2835.Dma.Start
import Bcm2835.Dma.Steps
import Bcm2835.Dma.HostSpec
import Bcm2835.Dma.Gather
import Bcm2835.Dma.Ripple
import Bcm2835.Dma.Thread
import Bcm2835.Dma.CmpSpec
import Bcm2835.Dma.CmpRuns
import Bcm2835.Dma.IntSpec
import Bcm2835.Dma.ShiftSpec
import Bcm2835.Dma.ShiftRuns
import Bcm2835.Dma.ShiftChains
import Bcm2835.Dma.MemoSpec
import Bcm2835.Dma.IncSpec
import Bcm2835.Dma.BitSpec
import Bcm2835.Dma.Theorems.Initializers
import Bcm2835.Dma.Theorems.Arena
import Bcm2835.Dma.Theorems.Accounting
import Bcm2835.Dma.Theorems.Emission
import Bcm2835.Dma.Theorems.Frame
import Bcm2835.Dma.Theorems.AddSub
import Bcm2835.Dma.Theorems.Increment
import Bcm2835.Dma.Theorems.Bitwise
import Bcm2835.Dma.Theorems.Negation
import Bcm2835.Dma.Theorems.Width
import Bcm2835.Dma.Theorems.Memo
import Bcm2835.Dma.Theorems.Unsigned
import Bcm2835.Dma.Theorems.Shifts
import Bcm2835.Dma.Theorems.Signed
import Bcm2835.Dma.Theorems.SignedShift
import Bcm2835.Integ.Hash
import Bcm2835.Integ.HashSpec
import Bcm2835.Integ.HashSeed
import Bcm2835.Integ.Theorems.Absorption
import Bcm2835.Integ.HashAsm
import Bcm2835.Integ.RunAsm
import Bcm2835.Integ.Theorems.HeaderCheck
import Bcm2835.Integ.Theorems.Assembly
import Bcm2835.Integ.Check
import Bcm2835.Integ.CheckSpec
import Bcm2835.Integ.Theorems.FalseAlarm
import Bcm2835.Integ.Theorems.Verdict
import Bcm2835.Integ.Coverage
import Bcm2835.Integ.CoverageSpec
import Bcm2835.Integ.Theorems.Coverage
