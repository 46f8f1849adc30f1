import SysProgLab.Contract
import SysProgLab.Relocation
import SysProgLab.Replay
import SysProgLab.BestFit
import SysProgLab.Rounding
import SysProgLab.CacheThreads
import SysProgLab.CacheKeys
import SysProgLab.JobTable
import SysProgLab.JobIds
import SysProgLab.Shell
import SysProgLab.ShellJobs
import SysProgLab.ShellEvents
import SysProgLab.MemList
import SysProgLab.Tracer
import SysProgLab.TracerRuns
import SysProgLab.TracerFailures
import SysProgLab.Decimal
import SysProgLab.Rio
import SysProgLab.RequestText
import SysProgLab.HandleClient
import SysProgLab.Ptree
import SysProgLab.PtreeRuns
import SysProgLab.ShellForeground
import SysProgLab.InPlace
import SysProgLab.OutOfMemory
import SysProgLab.Frees
import SysProgLab.CacheInsert
import SysProgLab.HeaderLines
import SysProgLab.ObjectBuffer
import SysProgLab.ShellBgfg
import SysProgLab.ShellLog
import SysProgLab.MemListRuns
import SysProgLab.TracerVersions
import SysProgLab.TracerSites
import SysProgLab.ParseLine
import SysProgLab.ShellLines
import SysProgLab.HeaderFilter
import SysProgLab.Uri
import SysProgLab.ShellFailures
import SysProgLab.Trail
import SysProgLab.MmCheck
import SysProgLab.MmCheckRuns
import SysProgLab.Driver
import SysProgLab.Verdict
import SysProgLab.Accepted
import SysProgLab.Leftover
import SysProgLab.TraceFile
import SysProgLab.Descriptor
import SysProgLab.Fcyc
import SysProgLab.RioBuffer
import SysProgLab.Wires
import SysProgLab.Ptree2
import SysProgLab.ShellListing
import SysProgLab.Sockets
import SysProgLab.CacheSerial
import SysProgLab.CallSites
import SysProgLab.Endings
import SysProgLab.Paddr
import SysProgLab.TracerParts
import SysProgLab.CacheMemory
import SysProgLab.CacheWalks
