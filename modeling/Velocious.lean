import Velocious.BackgroundJobs.Store.Schedules
import Velocious.BackgroundJobs.Store.Attempts
import Velocious.BackgroundJobs.LocalStore.Invariants
import Velocious.BackgroundJobs.Store.ReconcileRace
import Velocious.BackgroundJobs.Store.IdempotencyRuns
import Velocious.Sync.ReplayDeliveries
import Velocious.Sync.LocalSyncQueue
import Velocious.HttpServer.WebsocketResume
import Velocious.HttpServer.WebsocketReplay
import Velocious.Sync.ConflictTrackedReplayRuns
import Velocious.Sync.RealtimeConvergence
import Velocious.HttpServer.PipelineOrder
import Velocious.HttpServer.WebsocketDecoding
import Velocious.HttpServer.RequestPipelining
import Velocious.Sync.RealtimeSubscriptionRuns
import Velocious.Sync.ModelChangeFeedPull
import Velocious.Sync.ServerChangeFeedRuns
import Velocious.Sync.MutationLogRuns
import Velocious.HttpServer.WebsocketEventsHost
import Velocious.Sync.ServerChangeFeedAgreement
import Velocious.Database.ActsAsListRuns
import Velocious.HttpServer.InboundAdmissionRuns
import Velocious.HttpServer.WebsocketEventLogStore
import Velocious.Sync.SyncPublisher
import Velocious.BackgroundJobs.LocalDispatcherRuns
import Velocious.Testing.SharedTransactionBrokerRuns
import Velocious.Database.AdvisoryLockTimeouts
import Velocious.Database.OperationLeaseRuns
import Velocious.Database.MigratorRuns
import Velocious.Database.WebPersistence
import Velocious.Tenants.TenantAggregatorMerging
import Velocious.Database.Query.WhereHashMeaning
import Velocious.Database.Query.WithCountRelationships
import Velocious.Database.Query.RelationshipTreesPreloads
import Velocious.Authorization.AbilityFilter
import Velocious.Database.Record.CounterCacheMagnitudeSums
import Velocious.Database.Record.StateMachineRuns
import Velocious.Database.LiveQueryConvergence
import Velocious.Tenants.DataCopierMoveRuns
import Velocious.Utils.Sha256Hex
import Velocious.BackgroundJobs.CronGrammar
import Velocious.BackgroundJobs.CronZones
import Velocious.Sync.ServerSequenceAllocator
import Velocious.Utils.SplitSqlStatements
import Velocious.Sync.TableReadiness
import Velocious.Sync.SyncScopeStoreHistories
import Velocious.Database.Query.CountAgreement
import Velocious.BackgroundJobs.JsonSocket
import Velocious.HttpServer.ClientDeliveryQueueRuns
import Velocious.Sync.ReplayPersistedData
import Velocious.Sync.FieldThreeWay
import Velocious.Tenants.DataCopierRepair
import Velocious.HttpServer.ResponseCompression
import Velocious.Database.InsertChunks
import Velocious.Database.MigratorReset
import Velocious.Testing.SharedTransactionCodec
import Velocious.Database.NestedTransactions
import Velocious.BackgroundJobs.Scheduler
