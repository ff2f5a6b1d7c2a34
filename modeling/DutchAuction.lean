import DutchAuction.Library.Emit
import DutchAuction.Library.Runs
import DutchAuction.Library.OrdMap
import DutchAuction.Core.State
import DutchAuction.Core.Ladder
import DutchAuction.Core.Pricing
import DutchAuction.Core.Arms
import DutchAuction.Core.Unfilled
import DutchAuction.Core.Uniform
import DutchAuction.Core.Fairness
import DutchAuction.Core.Account
import DutchAuction.Core.Refusal
import DutchAuction.Core.Terms
import DutchAuction.Core.Final
import DutchAuction.Core.Inverse
import DutchAuction.Core.Allotment
import DutchAuction.Core.Withdrawal
import DutchAuction.Core.Cancellation
import DutchAuction.Core.Sealed
import DutchAuction.Core.Solvency
import DutchAuction.Core.Settlement
import DutchAuction.Core.Story
import DutchAuction.Core.Footprint
import DutchAuction.Core.Image
import DutchAuction.Core.Tolerance
import DutchAuction.Core.PriceTime
import DutchAuction.Wal.Bincode
import DutchAuction.Wal.Delimited
import DutchAuction.Wal.Replay
import DutchAuction.Engine.Restart
import DutchAuction.Wal.Damage
import DutchAuction.Wal.Checksum
import DutchAuction.Library.Layout
import DutchAuction.Wal.SnapshotFile
import DutchAuction.Engine.Files
import DutchAuction.Wal.Disk
import DutchAuction.Wal.History
import DutchAuction.Wal.Commit
import DutchAuction.Wal.Watermark
import DutchAuction.Engine.Timing
import DutchAuction.Engine.Shutdown
import DutchAuction.Engine.Crash
import DutchAuction.Engine.Deadline
import DutchAuction.Engine.Total
import DutchAuction.Engine.Lives
import DutchAuction.Engine.Failover
import DutchAuction.Engine.Backlog
import DutchAuction.Engine.Idle
import DutchAuction.Engine.Outage
