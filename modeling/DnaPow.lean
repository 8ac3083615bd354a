import DnaPow.Core.AuxPowCheck
import DnaPow.Core.BuiltPushes
import DnaPow.Core.CollectSignatures
import DnaPow.Vm.Control
import DnaPow.Vm.DataLaws
import DnaPow.Vm.Safety
import DnaPow.Vm.StackLaws
import DnaPow.Ledger.Balance
import DnaPow.Ledger.CompactTargets
import DnaPow.Ledger.ContextFree
import DnaPow.Ledger.FailedBlocks
import DnaPow.Ledger.ForkChoice
import DnaPow.Ledger.MedianTime
import DnaPow.Ledger.MerkleBranch
import DnaPow.Ledger.OrphanRoot
import DnaPow.Ledger.OrphanSlices
import DnaPow.Ledger.Pruning
import DnaPow.Ledger.RawBlock
import DnaPow.Ledger.RoundTrip
import DnaPow.Account.PasswordChange
import DnaPow.Account.WalletFile
import DnaPow.Net.ConnectingList
import DnaPow.Net.DuplicateFilter
import DnaPow.Net.Handshake
import DnaPow.Net.Inventory
import DnaPow.Net.KnownAddresses
import DnaPow.Net.Link
import DnaPow.Net.PoolConcurrency
import DnaPow.Consensus.GenerateBlock
import DnaPow.Crypto.Point
import DnaPow.Crypto.Sm2
import DnaPow.Crypto.Sm3
import DnaPow.Sdk.Transfer
