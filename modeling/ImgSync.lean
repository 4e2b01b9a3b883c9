import ImgSync.Lib.Run
import ImgSync.Lib.Table
import ImgSync.Lib.Page
import ImgSync.Lib.Slots
import ImgSync.Lib.Files
import ImgSync.Lib.AdvisoryLock
import ImgSync.Lib.Reader
import ImgSync.Queue.Schema
import ImgSync.Queue.Enqueue
import ImgSync.Queue.Maintenance
import ImgSync.Worker.ErrDetail
import ImgSync.Worker.Job
import ImgSync.Worker.Process
import ImgSync.Queue.Ops
import ImgSync.Queue.Audit
import ImgSync.Worker.Runner
import ImgSync.Worker.Fencing
import ImgSync.Sniffer.Query
import ImgSync.Sniffer.RunOnce
import ImgSync.Sniffer.NoLoss
import ImgSync.Ftp.Pool
import ImgSync.Ftp.Capacity
import ImgSync.Ftp.Connections
import ImgSync.Ftp.Wakeup
import ImgSync.Ftp.Pod
import ImgSync.Ftp.Ownership
import ImgSync.Ftp.Deadlock
import ImgSync.Ftp.Publish
import ImgSync.Transfer.Send
import ImgSync.Transfer.Verify
import ImgSync.Transfer.CtxReader
import ImgSync.Transfer.Copy
import ImgSync.Hostcap.Cluster
import ImgSync.Hostcap.Bound
import ImgSync.Backoff.Idle
import ImgSync.Health.Livez
import ImgSync.Sweeper.Run
import ImgSync.Sweeper.Exact
import ImgSync.Transfer.Integrity
import ImgSync.Localfs.Publish
import ImgSync.Lib.UniqueIndex
import ImgSync.Queue.Sessions
import ImgSync.Queue.Agreement
import ImgSync.Worker.Report
import ImgSync.Queue.Paths
import ImgSync.Db.Migrate
import ImgSync.Lib.Utf8
import ImgSync.Worker.StoredError
import ImgSync.Queue.BatchInsert
import ImgSync.Sniffer.Poll
import ImgSync.Sniffer.Pages
import ImgSync.Sniffer.KeyText
import ImgSync.Env.Vars
import ImgSync.Cli.Sniffer
import ImgSync.Sniffer.Reset
import ImgSync.Retention.Run
import ImgSync.Retention.Exact
import ImgSync.Retention.Outcome
import ImgSync.Retention.Days
import ImgSync.Lib.Replace
import ImgSync.Worker.Scrub
import ImgSync.Worker.Skip
import ImgSync.Worker.Loop
import ImgSync.Worker.Shutdown
import ImgSync.Worker.RetryDelay
import ImgSync.Worker.Retries
import ImgSync.Lib.Board
import ImgSync.Metrics.Workers
import ImgSync.Ftp.Metrics
import ImgSync.Ftp.Close
import ImgSync.Hostcap.Scan
import ImgSync.Lib.Walk
import ImgSync.Ftp.Paths
import ImgSync.Lib.SliceHeap
import ImgSync.Backoff.Wake
import ImgSync.Transfer.CtxRead
import ImgSync.Ftp.Jobs
import ImgSync.Ftp.Handles
import ImgSync.Ftp.Release
import ImgSync.Ftp.JobSteps
import ImgSync.Ftp.NoLeak
import ImgSync.Lib.Climb
import ImgSync.Backoff.Schedule
import ImgSync.Queue.Clock
import ImgSync.Worker.Order
import ImgSync.Worker.SkipLocked
import ImgSync.Worker.Exclusive
import ImgSync.Worker.Leases
import ImgSync.Lib.Ticker
import ImgSync.Sweeper.Loop
import ImgSync.Worker.Delivery
import ImgSync.Worker.Pods
import ImgSync.Worker.Load
import ImgSync.Lib.RowLocks
import ImgSync.Queue.Content
import ImgSync.Worker.Updates
import ImgSync.Worker.Wiring
import ImgSync.Sniffer.Fleet
