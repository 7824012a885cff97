import AmlReal.Bitcoin.AnalyticsRecovery
import AmlReal.Bitcoin.FailureHistory
import AmlReal.Bitcoin.ReviewedClaims
import AmlReal.Bitcoin.RouteBounds
import AmlReal.Bitcoin.UnspentReplay
import AmlReal.Bitcoin.ExposureAgreement
import AmlReal.RiskPolicy.ExposureSoundness
import AmlReal.RiskPolicy.QualifyingEvidence
import AmlReal.Foundations.IntervalPropagation
import AmlReal.Warehouse.Attribution
import AmlReal.Bsc.BlockEvidence
import AmlReal.Ethereum.FollowCoverage
import AmlReal.Tron.CheckpointCoverage
import AmlReal.Bsc.FactVisibility
import AmlReal.Bsc.CursorChain
import AmlReal.Tron.TokenTransfers
import AmlReal.Tron.ExposureRuns
import AmlReal.Tron.Batching
import AmlReal.Tron.DiscoveryCursor
import AmlReal.Ethereum.EntityLabels
import AmlReal.Tron.ReviewedAttribution
import AmlReal.Ethereum.ExposurePaths
import AmlReal.Bsc.BatchDecoding
import AmlReal.Bsc.Paths
import AmlReal.Bsc.ExposureSearch
import AmlReal.Bsc.WalletGraph
import AmlReal.Ethereum.RiskConsistency
import AmlReal.Tron.WalletPaths
import AmlReal.Tron.Neighborhood
import AmlReal.Tron.BestExposure
import AmlReal.Tron.Balances
import AmlReal.Tron.AddressForms
import AmlReal.Foundations.Totals
import AmlReal.Ethereum.BridgeEvents
import AmlReal.Warehouse.Amounts
import AmlReal.Tron.WalletIdentity
import AmlReal.Warehouse.Assets
import AmlReal.Bitcoin.Rpc
import AmlReal.Warehouse.Constraints
import AmlReal.Bitcoin.StoredBlocks
import AmlReal.Warehouse.Rollback
import AmlReal.Bitcoin.Reconcile
import AmlReal.Bitcoin.GapScan
import AmlReal.Ethereum.WalletPaths
import AmlReal.Ethereum.StandardLogs
import AmlReal.Ethereum.BlockExtraction
import AmlReal.Ethereum.BlockSources
import AmlReal.Ethereum.TransferIds
import AmlReal.Ethereum.BlockTransfers
import AmlReal.Foundations.SubStore
import AmlReal.Bitcoin.IngestionLoop
import AmlReal.Bitcoin.PublicationGuards
import AmlReal.Bitcoin.Repair
import AmlReal.Foundations.KeyedPools
import AmlReal.Warehouse.AnalysisPublications
import AmlReal.Warehouse.AnalysisSeals
import AmlReal.Bitcoin.PathConnectivity
