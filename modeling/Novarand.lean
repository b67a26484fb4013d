import Novarand.Agreement.Checkpoint
import Novarand.Agreement.CrashSafety
import Novarand.Agreement.Net
import Novarand.Agreement.Seeds
import Novarand.Avm.Arith
import Novarand.Catchup.Switch
import Novarand.CompactCert.Weight
import Novarand.CompactCert.Worker
import Novarand.Crypto.CertRobust
import Novarand.Crypto.TrieRoots
import Novarand.Data.TxHandler
import Novarand.Ledger.Assets
import Novarand.Ledger.Budget
import Novarand.Ledger.Bulletin
import Novarand.Ledger.Catchpoints
import Novarand.Ledger.FeeCredit
import Novarand.Ledger.Fees
import Novarand.Ledger.InnerAuth
import Novarand.Ledger.LookupRight
import Novarand.Ledger.Storage
import Novarand.Ledger.TxTail
import Novarand.Ledger.TxnCodec
import Novarand.Ledger.Upgrades
import Novarand.Network.Phonebook
import Novarand.Pools.Fees
import Novarand.Pools.Pending
import Novarand.Ledger.PaysetCommit
