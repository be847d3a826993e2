import SynergyFormal.Lib.BatchStore
import SynergyFormal.Lib.BigEndian
import SynergyFormal.Lib.Buckets
import SynergyFormal.Lib.Buffers
import SynergyFormal.Lib.Descent
import SynergyFormal.Lib.Directory
import SynergyFormal.Lib.InverseIndex
import SynergyFormal.Lib.Leases
import SynergyFormal.Lib.Loop
import SynergyFormal.Lib.Matching
import SynergyFormal.Lib.Ordered
import SynergyFormal.Lib.OutputLedger
import SynergyFormal.Lib.Parking
import SynergyFormal.Lib.Primality
import SynergyFormal.Lib.Reasons
import SynergyFormal.Lib.RecordLog
import SynergyFormal.Lib.Session
import SynergyFormal.Lib.SignedWord
import SynergyFormal.Lib.Slices
import SynergyFormal.Lib.Stream
import SynergyFormal.Lib.Tree
import SynergyFormal.Lib.Truncate
import SynergyFormal.Lib.Wire
import SynergyFormal.Primitives.Script
import SynergyFormal.Primitives.Solver
import SynergyFormal.Primitives.Transaction
import SynergyFormal.Primitives.CheckTransaction
import SynergyFormal.Primitives.OpRetFee
import SynergyFormal.Primitives.Block
import SynergyFormal.Primitives.Compact
import SynergyFormal.Primitives.Codec
import SynergyFormal.Primitives.SignatureHash
import SynergyFormal.Primitives.FindAndDelete
import SynergyFormal.Primitives.Interpreter
import SynergyFormal.Primitives.SigOpBound
import SynergyFormal.Primitives.EvalStack
import SynergyFormal.Primitives.StackSafety
import SynergyFormal.Primitives.MultiSigMatch
import SynergyFormal.Primitives.ScriptBuild
import SynergyFormal.Primitives.KeyCopies
import SynergyFormal.Ledger.TxDB
import SynergyFormal.Ledger.TxnCalls
import SynergyFormal.Ledger.Inputs
import SynergyFormal.Ledger.Reward
import SynergyFormal.Ledger.Wallet
import SynergyFormal.Ledger.ConnectBlock
import SynergyFormal.Ledger.Accounting
import SynergyFormal.Ledger.Mint
import SynergyFormal.Ledger.SpentIndex
import SynergyFormal.Ledger.Positions
import SynergyFormal.Ledger.Outstanding
import SynergyFormal.Ledger.WalletFlags
import SynergyFormal.Pool.MemPool
import SynergyFormal.Pool.Removal
import SynergyFormal.Pool.Conflicts
import SynergyFormal.Pool.PoolIndex
import SynergyFormal.Pool.FreeInputs
import SynergyFormal.Pool.Orphans
import SynergyFormal.Pool.Arrival
import SynergyFormal.Wallet.KeyPool
import SynergyFormal.Wallet.SpentCoins
import SynergyFormal.Wallet.Stealth
import SynergyFormal.Wallet.CryptoKeyStore
import SynergyFormal.Wallet.Encryption
import SynergyFormal.Wallet.StealthKeys
import SynergyFormal.Wallet.UnlockRuns
import SynergyFormal.Net.AddrMan
import SynergyFormal.Net.AddrManInvariant
import SynergyFormal.Net.AddrManCalls
import SynergyFormal.Net.AddrManDisk
import SynergyFormal.Net.Eviction
import SynergyFormal.Chain.BestChain
import SynergyFormal.Chain.StakeModifier
import SynergyFormal.Chain.Kernel
import SynergyFormal.Chain.Difficulty
import SynergyFormal.Chain.Switch
import SynergyFormal.Chain.Core
import SynergyFormal.Chain.BlockMap
import SynergyFormal.Chain.Pointers
import SynergyFormal.Chain.Selection
import SynergyFormal.Chain.FailedSwitch
import SynergyFormal.Chain.MoneySupply
import SynergyFormal.Chain.PoolChain
import SynergyFormal.Chain.AcceptBlock
import SynergyFormal.Chain.ProcessBlock
import SynergyFormal.Chain.IndexRecords
import SynergyFormal.Chain.LoadBlockIndex
import SynergyFormal.Chain.Restart
import SynergyFormal.Chain.SyncCheckpoint
import SynergyFormal.Chain.Import
import SynergyFormal.Message.SecureMsg
import SynergyFormal.Message.Decrypt
import SynergyFormal.Message.Scan
import SynergyFormal.Message.Receive
import SynergyFormal.Message.ReceiveData
import SynergyFormal.Message.Bunch
import SynergyFormal.Message.Buckets
import SynergyFormal.Message.Rebuild
import SynergyFormal.Chain.Finding
import SynergyFormal.Primitives.DataStream
import SynergyFormal.Net.TimeData
import SynergyFormal.Net.Alerts
