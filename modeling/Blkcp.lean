import Blkcp.Agree
import Blkcp.Lib.Loop
import Blkcp.Lib.Transition
import Blkcp.Rust.Config
import Blkcp.Rust.Transfer
import Blkcp.Rust.TuiGuard
import Blkcp.Rust.TuiRefresh
import Blkcp.Rust.Execute
import Blkcp.Rust.OpenOrder
import Blkcp.Rust.SpliceFallback
import Blkcp.Rust.Async
import Blkcp.Rust.AsyncStuck
import Blkcp.Rust.AsyncRefines
import Blkcp.Blks.Soundness
import Blkcp.Blks.Base64
import Blkcp.Rust.ShardedDigest
import Blkcp.Rust.Siblings
import Blkcp.Rust.DigestOnTarget
import Blkcp.Rust.Amount
import Blkcp.Rust.Cancelled
import Blkcp.Rust.CountedOnce
import Blkcp.Rust.SwabStream
import Blkcp.Rust.Durable
import Blkcp.Rust.DirectFallback
import Blkcp.Rust.SparseFresh
import Blkcp.Rust.UringExact
import Blkcp.Rust.Noerror
import Blkcp.Rust.Aligned
import Blkcp.Rust.RingLength
import Blkcp.Rust.Preview
import Blkcp.Rust.TuiRuns
import Blkcp.Rust.TuiListing
import Blkcp.Rust.Presets
import Blkcp.Rust.DryRun
import Blkcp.C.RingCopy
import Blkcp.C.ShardsCopy
import Blkcp.C.Telemetry
import Blkcp.C.SwabStream
import Blkcp.C.SyncPad
import Blkcp.C.SwabLimit
import Blkcp.C.Reblock
import Blkcp.C.TuneLimit
import Blkcp.C.AsyncRing
import Blkcp.C.Noerror
import Blkcp.C.Success
import Blkcp.C.SkipReads
import Blkcp.C.Amount
import Blkcp.C.TargetSafety
import Blkcp.C.DryRun
import Blkcp.C.TuiMain
import Blkcp.C.TuiConveys
import Blkcp.C.Signals
import Blkcp.C.Cache
import Blkcp.C.Exact
import Blkcp.C.Reports
import Blkcp.DryRunJson
import Blkcp.Notrunc
import Blkcp.Seek
import Blkcp.SummaryJson
import Blkcp.WriteLoops
