import Neoip.Run
import Neoip.Interval
import Neoip.IntervalRange
import Neoip.Unit
import Neoip.Bitfield
import Neoip.Bencode
import Neoip.BencodeGrammar
import Neoip.Serial
import Neoip.StateDb
import Neoip.KeyedDb
import Neoip.Remote
import Neoip.SchedPiece
import Neoip.Sched
import Neoip.SchedInv
import Neoip.SchedLoop
import Neoip.SchedRun
import Neoip.Swarm
import Neoip.Resume
import Neoip.SwarmCount
import Neoip.Counters
import Neoip.SwarmSched
import Neoip.Redistribute
import Neoip.BlockReq
import Neoip.Piecewish
import Neoip.PiecewishRun
import Neoip.Wire
import Neoip.Sendq
import Neoip.FilePath
import Neoip.Metainfo
import Neoip.Buckets
import Neoip.Pselect
import Neoip.PselectFixed
import Neoip.PselectSlide
import Neoip.IoCache
import Neoip.IoCacheDb
import Neoip.IoCachePool
import Neoip.IoCacheStore
import Neoip.IoCacheBlocks
import Neoip.IoCacheSubio
import Neoip.IoCacheRun
import Neoip.IoCacheStop
import Neoip.Utmsg
import Neoip.Wai
import Neoip.Omap
import Neoip.Rdgram
import Neoip.Ordgram
import Neoip.OrdgramRecvbuf
import Neoip.OrdgramFlow
import Neoip.OrdgramLink
import Neoip.Pktfrag
import Neoip.PktfragCovers
import Neoip.PktfragRound
import Neoip.PktfragPool
import Neoip.Slidwin
import Neoip.Scnx
import Neoip.ScnxReplay
import Neoip.ScnxSeqnb
import Neoip.ScnxRekey
import Neoip.GenId
import Neoip.GenIdBits
import Neoip.Kbucket
import Neoip.Nearest
import Neoip.KbucketClosest
import Neoip.Ktable
import Neoip.KbucketTable
import Neoip.KbucketRun
import Neoip.Incremental
import Neoip.Rtmp
import Neoip.RtmpParse
import Neoip.RtmpRound
import Neoip.Bcast
import Neoip.Check
import Neoip.KadRec
import Neoip.KadDb
import Neoip.KadDump
import Neoip.KadQuery
import Neoip.KadNsearch
import Neoip.Codec
import Neoip.Cookie
import Neoip.ScnxEst
import Neoip.ScnxAgree
import Neoip.KadReplicate
import Neoip.KadSerial
import Neoip.Extent
import Neoip.Iov
import Neoip.RateEstim
import Neoip.Keystream
import Neoip.Jamrc4
import Neoip.RdgramSendbuf
import Neoip.Tally
import Neoip.RateSched
import Neoip.Difflog
import Neoip.PeersrcUtpex
import Neoip.SchedRequest
import Neoip.IoCacheFail
import Neoip.Peerpick
import Neoip.PeerpickSlots
import Neoip.Totfile
import Neoip.BitfieldCodec
import Neoip.SerialBounds
import Neoip.IntervalSerial
import Neoip.Chains
import Neoip.IoCacheScan
import Neoip.SlidwinMap
import Neoip.Walk
import Neoip.FilePathWalk
import Neoip.LocalDir
import Neoip.MetainfoInit
import Neoip.FileTree
import Neoip.BtAlloc
import Neoip.BtAllocInv
import Neoip.BtAllocRun
import Neoip.FilePathString
import Neoip.FilePathContain
import Neoip.Escape
import Neoip.HttpUri
import Neoip.HttpUriRound
import Neoip.JoinedNames
import Neoip.HttpNestedUri
import Neoip.HttpNestedUriRound
import Neoip.HttpNestedUriLoss
import Neoip.Flv
import Neoip.FlvParse
import Neoip.Amf0
import Neoip.Amf0Grammar
import Neoip.TrackerReply
import Neoip.TrackerReplyRound
import Neoip.CookieRun
import Neoip.Slotpool
import Neoip.Base64
import Neoip.EventHook
import Neoip.Zerotimer
import Neoip.Delay
import Neoip.Timeout
import Neoip.CastPidx
import Neoip.BitPrefix
import Neoip.IpNetaddr
import Neoip.Negorange
import Neoip.Linked
import Neoip.Mlist
import Neoip.PselectSlideCurs
import Neoip.Fields
import Neoip.HttpHeader
import Neoip.HttpHeaderRound
import Neoip.HttpHeaderRange
import Neoip.FileSys
import Neoip.FileIo
import Neoip.FileIoAtomic
import Neoip.FileIoRun
import Neoip.FileIoSfile
import Neoip.FileIoPfile
import Neoip.Memmem
import Neoip.Jamstd
import Neoip.JamstdEst
import Neoip.JamstdRun
