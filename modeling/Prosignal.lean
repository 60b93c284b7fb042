import Prosignal.LedgerHistory
import Prosignal.OutcomeBook
import Prosignal.OutcomeResolution
import Prosignal.CappedFill
import Prosignal.KeyedList
import Prosignal.FinalSignal
import Prosignal.BookSizing
import Prosignal.ConvictionGate
import Prosignal.ModelDomain
import Prosignal.Eligibility
import Prosignal.SignalDefense
import Prosignal.EntryAdmission
import Prosignal.HeldBook
import Prosignal.Pipeline
import Prosignal.Hysteresis
import Prosignal.ConvictionMemory
import Prosignal.PositionReview
import Prosignal.Continuity
import Prosignal.JsonText
import Prosignal.JsonRoundTrip
import Prosignal.JsonLines
import Prosignal.LedgerFile
import Prosignal.SlateSelection
import Prosignal.SlateAccounts
import Prosignal.TradeExits
import Prosignal.ExitAgreement
import Prosignal.PendingCalls
import Prosignal.StandingCalls
import Prosignal.OpenPositions
import Prosignal.OpenBookAccounts
import Prosignal.PartitionedTable
import Prosignal.PriceReads
import Prosignal.PriceCache
import Prosignal.PortfolioSim
import Prosignal.PortfolioLeverage
import Prosignal.CarriedReturns
import Prosignal.LineSplits
import Prosignal.JsonDicts
import Prosignal.LineageRepair
import Prosignal.RepairedLedger
import Prosignal.ResolvedLineage
import Prosignal.AdmissionLimits
import Prosignal.EntryFloor
import Prosignal.Cadence
import Prosignal.SessionCount
import Prosignal.GroupFold
import Prosignal.StatementUpserts
import Prosignal.Transitions
import Prosignal.JobSteps
import Prosignal.SingleFlight
import Prosignal.FinishedJobs
import Prosignal.RollingWindows
import Prosignal.PitFundamentals
import Prosignal.FundamentalPanel
import Prosignal.AgreeingTables
import Prosignal.NoLookAhead
import Prosignal.Epochs
import Prosignal.EpochFile
import Prosignal.EpochClosure
import Prosignal.EpochSameness
import Prosignal.TrialRegistry
import Prosignal.TrialCount
import Prosignal.CalendarHint
import Prosignal.ForwardProgress
import Prosignal.Backfill
import Prosignal.BackfillRuns
import Prosignal.HintedSessions
import Prosignal.EquityLines
import Prosignal.OrderedMatch
import Prosignal.ActionReaders
import Prosignal.ActionAgreement
import Prosignal.ActionRecognition
import Prosignal.HttpCache
import Prosignal.StoreIdentity
import Prosignal.ForwardWindow
import Prosignal.StoreBinding
import Prosignal.FloatArithmetic
import Prosignal.ConvictionEvidence
import Prosignal.SpecificationSurvival
import Prosignal.ConvictionMeasures
import Prosignal.FailClosedGate
import Prosignal.ActionWording
import Prosignal.CombinedActions
import Prosignal.CacheCrashes
import Prosignal.XbrlFacts
import Prosignal.SilentPositions
import Prosignal.WaterLevel
import Prosignal.BookAllocation
import Prosignal.BandSelection
import Prosignal.ExitWalk
import Prosignal.BasisScaling
import Prosignal.ProportionalCap
import Prosignal.BlendWeights
import Prosignal.ActionDedupe
import Prosignal.AdjustedReturns
import Prosignal.LiquidityUniverse
import Prosignal.FunnelCounts
import Prosignal.RoundTrips
import Prosignal.Reentries
import Prosignal.NewestDisclosed
import Prosignal.TrailingYears
import Prosignal.YearOnYear
import Prosignal.Combinations
import Prosignal.PurgedSplits
import Prosignal.DeflatedSharpe
import Prosignal.BartlettKernel
import Prosignal.NeweyWest
import Prosignal.ReferenceReads
import Prosignal.DecisionLabels
import Prosignal.FileEffects
import Prosignal.SplitRows
import Prosignal.Operations
import Prosignal.OperatorResets
import Prosignal.SharedCover
import Prosignal.LabelUniqueness
import Prosignal.BandAnnotation
import Prosignal.FractionalRank
import Prosignal.ThemeScores
import Prosignal.ScoreOrder
import Prosignal.Measurement
import Prosignal.MeasurementStory
import Prosignal.SharedLock
import Prosignal.StoreLock
import Prosignal.Retention
import Prosignal.DateTexts
import Prosignal.RunDetail
import Prosignal.LatestRun
import Prosignal.Tally
import Prosignal.ScreenHistory
import Prosignal.HistoryDays
import Prosignal.HistoryViews
import Prosignal.Lookback
import Prosignal.V3Factors
import Prosignal.FactorFrames
import Prosignal.FactorBasis
import Prosignal.TradeCosts
import Prosignal.RiskPlans
import Prosignal.PlanLimits
import Prosignal.SimulatedSizing
import Prosignal.StablePlace
import Prosignal.CoreRanking
import Prosignal.RankingOrder
import Prosignal.PlannedRuns
import Prosignal.MarketRegime
import Prosignal.RegimeRuns
