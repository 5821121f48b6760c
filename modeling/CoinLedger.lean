import CoinLedger.Config
import CoinLedger.Signing.InPlace
import CoinLedger.Ledger.Blobs
import CoinLedger.Ledger.Lightning
import CoinLedger.Ledger.Spending
import CoinLedger.Proofs.Funding.Conservation
import CoinLedger.Proofs.Ledger.Derivation
import CoinLedger.Proofs.Ledger.UtxoSet
import CoinLedger.Ledger.Request
import CoinLedger.Proofs.Ledger.Requests
import CoinLedger.Proofs.Ledger.Tables
import CoinLedger.Proofs.Ledger.Reports
import CoinLedger.Proofs.Ledger.References
import CoinLedger.Proofs.Ledger.Convergence
import CoinLedger.Proofs.Ledger.Replacement
import CoinLedger.Proofs.Ledger.Redelivery
import CoinLedger.Proofs.Ledger.Blobs
import CoinLedger.Proofs.Ledger.WalletKeys
import CoinLedger.Proofs.Ledger.DerivedScripts
import CoinLedger.Proofs.Ledger.SignTransaction
import CoinLedger.Proofs.Ledger.BuildTransaction
import CoinLedger.Proofs.Ledger.SpentCoins
import CoinLedger.Proofs.Funding.LargestFirst
import CoinLedger.Proofs.Funding.Weight
import CoinLedger.Proofs.Ledger.OfferOrder
import CoinLedger.Proofs.Ledger.ExplicitInputs
import CoinLedger.Ledger.Query
import CoinLedger.Proofs.Ledger.History
import CoinLedger.Proofs.Ledger.Failures
import CoinLedger.Proofs.Ledger.Decoding
import CoinLedger.Proofs.Ledger.KeyCache
import CoinLedger.Proofs.Ledger.Retraction
import CoinLedger.Proofs.Ledger.Replay
import CoinLedger.Proofs.Ledger.Undo
import CoinLedger.Proofs.Funding.Failures
import CoinLedger.Proofs.Ledger.Shortfall
import CoinLedger.Proofs.Ledger.Confirmation
import CoinLedger.Proofs.Store.Scans
import CoinLedger.Proofs.Ledger.SpendableData
import CoinLedger.Proofs.Ledger.ChannelHistory
import CoinLedger.Proofs.Ledger.Payments
import CoinLedger.Proofs.Ledger.BlockRefresh
import CoinLedger.Proofs.Ledger.CoinPartition
import CoinLedger.Proofs.Signing.KeySets
import CoinLedger.Proofs.Signing.InPlace
