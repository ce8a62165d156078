import OrdersBackend.Lib.JsMap
import OrdersBackend.Lib.Numeral
import OrdersBackend.Lib.Doubles
import OrdersBackend.Lib.Integers
import OrdersBackend.Lib.Async
import OrdersBackend.Lib.Threads
import OrdersBackend.Lib.Termination
import OrdersBackend.Lib.Actors
import OrdersBackend.Lib.Extend
import OrdersBackend.Lib.LockOrder
import OrdersBackend.Lib.Sum
import OrdersBackend.Lib.Rewrite
import OrdersBackend.Errors
import OrdersBackend.Entities
import OrdersBackend.OrderPolicy
import OrdersBackend.PaymentsStore
import OrdersBackend.Rabbit
import OrdersBackend.Database
import OrdersBackend.Commands
import OrdersBackend.World
import OrdersBackend.OrdersService
import OrdersBackend.OrdersWorker
import OrdersBackend.System
import OrdersBackend.Saga
import OrdersBackend.SagaStep
import OrdersBackend.Tables
import OrdersBackend.SagaInv
import OrdersBackend.SagaRuns
import OrdersBackend.Sessions
import OrdersBackend.Discipline
import OrdersBackend.Assertions
import OrdersBackend.Rules
import OrdersBackend.CallSpec
import OrdersBackend.ReserveSpec
import OrdersBackend.SettleSpec
import OrdersBackend.CreateOrderSpec
import OrdersBackend.WorkerSpec
import OrdersBackend.SystemSound
import OrdersBackend.Stock
import OrdersBackend.Effects
import OrdersBackend.Messages
import OrdersBackend.Idempotency
import OrdersBackend.Failure
import OrdersBackend.Payments
import OrdersBackend.Pool
import OrdersBackend.Contest
import OrdersBackend.ContestSpec
import OrdersBackend.ContestProgress
import OrdersBackend.Agreement
import OrdersBackend.OrderReads
import OrdersBackend.StockRule
import OrdersBackend.AmountRange
import OrdersBackend.OrderPolicyDoubles
import OrdersBackend.StockRuleDoubles
import OrdersBackend.Charge
import OrdersBackend.Lifecycle
import OrdersBackend.Fulfilment
import OrdersBackend.Replay
import OrdersBackend.RowLocks
import OrdersBackend.Mailbox
import OrdersBackend.Deliveries
import OrdersBackend.Files
import OrdersBackend.FilesInv
import OrdersBackend.FilesSound
import OrdersBackend.Completions
import OrdersBackend.CompletionRaces
import OrdersBackend.ErrorCode
import OrdersBackend.PaymentsLedger
import OrdersBackend.Lib.Steady
import OrdersBackend.Connections
import OrdersBackend.Attempts
import OrdersBackend.Executions
import OrdersBackend.Integrity
import OrdersBackend.Lib.Paging
import OrdersBackend.OrderQueries
import OrdersBackend.Lib.Grouping
import OrdersBackend.Metrics
import OrdersBackend.Copies
import OrdersBackend.PaymentRecords
import OrdersBackend.PaymentsRpc
import OrdersBackend.Transactions
import OrdersBackend.TransactionsSound
import OrdersBackend.RowWaits
import OrdersBackend.Responses
import OrdersBackend.ResponsesSound
import OrdersBackend.Recovery
import OrdersBackend.Downloads
import OrdersBackend.CreatedOrders
import OrdersBackend.Lib.Beside
import OrdersBackend.FilesBeside
import OrdersBackend.Alone
import OrdersBackend.Sequential
import OrdersBackend.OrderPolicyDoubles
