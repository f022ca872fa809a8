import SolidTrace.Monitors.MatchRuns
import SolidTrace.Monitors.FiringAlternates
import SolidTrace.EventProcessing.IssueCreated
import SolidTrace.LogTables.CacheInvisible
import SolidTrace.Ingest.CountedOnce
import SolidTrace.Notifications.OutcomeRecorded
import SolidTrace.LogQuery.Stages
import SolidTrace.LogQuery.Sql
import SolidTrace.SpanProcessing.ExactlyOnce
import SolidTrace.LogQuery.Narrow
import SolidTrace.LogQuery.TwoValued
import SolidTrace.LogQuery.Timeless
import SolidTrace.LogQuery.ParseInverse
import SolidTrace.LogPages.Paging
import SolidTrace.LogQuery.Filter
import SolidTrace.LogQuery.Table
import SolidTrace.LogQuery.Writable
import SolidTrace.LogQuery.RateColumns
import SolidTrace.LogQuery.BinSizes
import SolidTrace.LogQuery.ReadScope
import SolidTrace.LogQuery.AllFilters
import SolidTrace.LogQuery.Grouping
import SolidTrace.LogQuery.CopiedLogs
import SolidTrace.LogQuery.ChartValues
import SolidTrace.LogsExplorer.Restores
import SolidTrace.LogsExplorer.ChipValues
import SolidTrace.Monitors.GroupsNow
import SolidTrace.Traces.Waterfall
import SolidTrace.Monitors.SavedMeanwhile
import SolidTrace.LogQuery.MessageCopies
import SolidTrace.Notifications.ChainOrder
import SolidTrace.LogQuery.Scan
import SolidTrace.Lib.Positions
import SolidTrace.Lib.Readers
import SolidTrace.Lib.Utf8
import SolidTrace.LogQuery.ExactPlaces
import SolidTrace.LogReads.HeavyReads
import SolidTrace.LogReads.SlotsKept
import SolidTrace.LogProcessing.StoreApart
import SolidTrace.SpanProcessing.SelfTimes
import SolidTrace.Ingest.Envelope
import SolidTrace.Normalise.KeptWhole
import SolidTrace.KeyCounts.LeftBehind
import SolidTrace.Dashboards.SelectOptions
import SolidTrace.Dashboards.QueueKeeps
import SolidTrace.Chsql.Escaper
import SolidTrace.LogTransform.Arrivals
import SolidTrace.LogQuery.Quotes
import SolidTrace.LogQuery.Offsets
import SolidTrace.Normalise.Epochs
import SolidTrace.LogQuery.ErrorSpans
import SolidTrace.OldLogs.KeptAlike
import SolidTrace.LogQuery.OnFile
