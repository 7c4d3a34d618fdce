import Node9.Lib.Buf
import Node9.Fcall
import Node9.ConvS2M
import Node9.EncBounds
import Node9.ConvM2S
import Node9.ExQueue
import Node9.Roundtrip
import Node9.Channel
import Node9.ChannelIsolation
import Node9.ExRead
import Node9.ExLocks
import Node9.ExFlush
import Node9.Fids
import Node9.ExWalk
import Node9.MntRead
import Node9.MntMuxInv
import Node9.Fds
import Node9.MountsFork
import Node9.MountsHeld
import Node9.ChannelOrder
import Node9.Lib.Ring
import Node9.Syscall
import Node9.SyscallProtocol
import Node9.Lib.Path
import Node9.Names
import Node9.Host
import Node9.Export
import Node9.ExportConfined
import Node9.Lib.PtrTree
import Node9.PoolFail
import Node9.PctlFd
import Node9.Lib.Deque
import Node9.VmRun
import Node9.SyncSleep
import Node9.BufferRun
import Node9.CapsRun
import Node9.JsonRound
import Node9.SchedulerError
import Node9.ShareRun
import Node9.IpRun
import Node9.JsonNumber
import Node9.JsonUnicode
import Node9.JsonTotal
import Node9.Stat
import Node9.ModRead
import Node9.QioBytes
import Node9.QioWrite
import Node9.QioQueue
import Node9.QioRun
import Node9.QioStream
import Node9.QioFlow
import Node9.QioFlowRun
import Node9.MntRdwr
import Node9.QioBlocks
import Node9.DirPackage
import Node9.DevWalk
import Node9.Rwrite
import Node9.UqidsRun
import Node9.FsWalk
import Node9.EnvRun
import Node9.Create
import Node9.FsSeek
import Node9.Union
import Node9.Kpread
import Node9.Parsename
import Node9.Kstrcpy
import Node9.Cname
import Node9.PoolRead
import Node9.PoolFit
import Node9.ConsLine
import Node9.ConsRead
import Node9.ConsLocks
import Node9.SslRun
import Node9.PoolCompact
import Node9.Lib.Utf8
import Node9.RuneUtf
import Node9.Lib.Bits
import Node9.TextEnc
import Node9.Dial
import Node9.IpText
import Node9.Tokenize
import Node9.Quote
import Node9.Arg
import Node9.Sh
import Node9.Argcheck
import Node9.Devpipe
import Node9.DevpipeRun
import Node9.IpForms
import Node9.IpCtl
import Node9.Class
import Node9.ClassRun
import Node9.Dofmt
import Node9.DofmtUnits
import Node9.Ifmt
import Node9.DofmtRun
