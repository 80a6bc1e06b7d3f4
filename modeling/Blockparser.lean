import Blockparser.Lib.Bytes
import Blockparser.Lib.Window
import Blockparser.Lib.Mpi
import Blockparser.Lib.Trace
import Blockparser.Lib.FreeList
import Blockparser.Lib.Utxo
import Blockparser.Lib.Forest
import Blockparser.Lib.Balance
import Blockparser.Lib.Segments
import Blockparser.Lib.Components
import Blockparser.Lib.Prefixes
import Blockparser.Lib.Escape
import Blockparser.Lib.Largest
import Blockparser.Lib.Top
import Blockparser.Lib.WeakOrder
import Blockparser.Lib.Probing
import Blockparser.Lib.BlockHash
import Blockparser.Lib.Roots
import Blockparser.Lib.Radix
import Blockparser.MemoryManager
import Blockparser.Parser
import Blockparser.Cursor
import Blockparser.Protocol
import Blockparser.Format
import Blockparser.Store
import Blockparser.Decode
import Blockparser.Upstream
import Blockparser.Transaction
import Blockparser.Chain
import Blockparser.Identity
import Blockparser.BlockIndex
import Blockparser.Headers
import Blockparser.Heights
import Blockparser.Depths
import Blockparser.LongestChain
import Blockparser.Script
import Blockparser.Classification
import Blockparser.AllBalances
import Blockparser.Address
import Blockparser.Progress
import Blockparser.BaseReward
import Blockparser.Balances
import Blockparser.Modes
import Blockparser.Transactions
import Blockparser.Pools
import Blockparser.Accounting
import Blockparser.Replay
import Blockparser.Taint
import Blockparser.Pristine
import Blockparser.Closure
import Blockparser.AtBlock
import Blockparser.SQLDump
import Blockparser.MultiSig
import Blockparser.MultiSigKeys
import Blockparser.HashBuffer
import Blockparser.Hex
import Blockparser.ShowScript
import Blockparser.CheckedAddress
import Blockparser.KeyList
import Blockparser.Commands
import Blockparser.HexCodec
import Blockparser.Decimal
import Blockparser.Escaping
import Blockparser.Records
import Blockparser.TypedRecords
import Blockparser.Histories
import Blockparser.ReservedKeys
import Blockparser.TopBalances
import Blockparser.Runs
import Blockparser.InputCounts
import Blockparser.SQLFiles
import Blockparser.TransactionTail
import Blockparser.DumpTotals
import Blockparser.SignedAmounts
import Blockparser.DenseHashtable
import Blockparser.DenseCells
import Blockparser.DenseResizing
import Blockparser.DenseHashMap
import Blockparser.DenseMarks
import Blockparser.AddrTables
import Blockparser.TableLedgers
import Blockparser.TableRecords
import Blockparser.TransactionTables
import Blockparser.HashContext
import Blockparser.SHA256
import Blockparser.SHA256Rounds
import Blockparser.RIPEMD160
import Blockparser.RIPEMD160Rounds
import Blockparser.Base58
import Blockparser.Optparse
import Blockparser.CommandLines
import Blockparser.CommandOptions
import Blockparser.UnspentCoins
import Blockparser.Pipeline
