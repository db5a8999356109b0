import Yalibct.Machine.Run
import Yalibct.Machine.Malloc
import Yalibct.Machine.Heap
import Yalibct.Machine.Stacked
import Yalibct.Machine.Binary32
import Yalibct.Model.Shell
import Yalibct.Model.TestRunner
import Yalibct.Model.Printf
import Yalibct.Model.StringBuffer
import Yalibct.Model.Write
import Yalibct.Model.Vasnprintf
import Yalibct.Model.Vdprintf
import Yalibct.Model.Obstack
import Yalibct.Model.ObstackPrintf
import Yalibct.Model.HashTable
import Yalibct.Soundness.TestRunner
import Yalibct.Soundness.StringBuffer
import Yalibct.Soundness.Write
import Yalibct.Soundness.Vdprintf
import Yalibct.Soundness.Obstack
import Yalibct.Soundness.ObstackPrintf
import Yalibct.Machine.Chain
import Yalibct.Soundness.HashTable
import Yalibct.Soundness.HashRehash
import Yalibct.Machine.Rounding
import Yalibct.Soundness.HashSize
import Yalibct.Soundness.HashPrime
import Yalibct.Machine.Dictionary
import Yalibct.Soundness.HashMap
import Yalibct.Machine.Lockstep
import Yalibct.Machine.Swap
import Yalibct.Model.Getopt
import Yalibct.Soundness.Exchange
import Yalibct.Soundness.Getopt
import Yalibct.Model.MemchrInv
import Yalibct.Soundness.MemchrInv
import Yalibct.Model.CycleCheck
import Yalibct.Soundness.CycleCheck
import Yalibct.Soundness.Vasnprintf
import Yalibct.Model.LongOption
import Yalibct.Soundness.LongOption
import Yalibct.Model.HashUndo
import Yalibct.Soundness.HashAtomic
import Yalibct.Model.TestWrappers
import Yalibct.Soundness.TestWrappers
import Yalibct.Model.Configure
import Yalibct.Model.CMakeLists
import Yalibct.Soundness.Configure
import Yalibct.Model.Capture
import Yalibct.Soundness.Capture
import Yalibct.Machine.Descriptors
import Yalibct.Machine.Procedure
import Yalibct.Model.FileSystem
import Yalibct.Model.FtsCalls
import Yalibct.Model.FtsDescent
import Yalibct.Model.Fts
import Yalibct.Soundness.FtsCalls
import Yalibct.Soundness.Ring
import Yalibct.Soundness.RingHistory
import Yalibct.Soundness.FtsDescent
import Yalibct.Soundness.FtsAside
import Yalibct.Soundness.FtsBuild
import Yalibct.Soundness.FtsRing
import Yalibct.Soundness.FtsPath
import Yalibct.Soundness.FtsPathWalk
import Yalibct.Soundness.FtsPathLaw
import Yalibct.Machine.Checked
import Yalibct.Machine.CString
import Yalibct.Model.Alignalloc
import Yalibct.Soundness.Alignalloc
import Yalibct.Model.Ldexp
import Yalibct.Soundness.Ldexp
import Yalibct.Model.Frexp
import Yalibct.Soundness.Frexp
import Yalibct.Model.Tempname
import Yalibct.Soundness.Tempname
import Yalibct.Soundness.TempnameDigits
import Yalibct.Model.PathSearch
import Yalibct.Soundness.PathSearch
import Yalibct.Model.Gvisor
import Yalibct.Soundness.GvisorFd
import Yalibct.Soundness.GvisorPath
import Yalibct.Model.PrintfOracle
import Yalibct.Soundness.PrintfOracle
import Yalibct.Machine.Cells
import Yalibct.Machine.Comparison
import Yalibct.Model.StrcmpFuzz
import Yalibct.Soundness.StrcmpFuzz
import Yalibct.Machine.Random
import Yalibct.Machine.Size
import Yalibct.Model.TestString
import Yalibct.Model.StrcmpTest
import Yalibct.Soundness.StrcmpTest
import Yalibct.Model.StrcatTest
import Yalibct.Soundness.StrcatTest
import Yalibct.Model.Casecmp
import Yalibct.Soundness.Casecmp
import Yalibct.Model.Getrandom
import Yalibct.Soundness.Getrandom
import Yalibct.Model.Getprogname
import Yalibct.Soundness.Getprogname
import Yalibct.Model.QuoteBlob
import Yalibct.Soundness.QuoteBlob
import Yalibct.Model.Rngset
import Yalibct.Soundness.Rngset
import Yalibct.Model.Cmocka
import Yalibct.Soundness.Cmocka
import Yalibct.Machine.Strtoul
import Yalibct.Model.TestDriver
import Yalibct.Soundness.TestDriver
import Yalibct.Soundness.TestTimeout
import Yalibct.Model.LtpHarness
import Yalibct.Soundness.LtpHarness
import Yalibct.Soundness.LtpVerdict
import Yalibct.Model.LtpRmobj
import Yalibct.Soundness.LtpRmobj
import Yalibct.Soundness.FtsSpares
import Yalibct.Soundness.FtsPlace
import Yalibct.Model.FtsTour
import Yalibct.Soundness.FtsTour
import Yalibct.Soundness.FtsListing
import Yalibct.Soundness.FtsVisit
import Yalibct.Soundness.FtsReads
import Yalibct.Soundness.FtsTraversal
