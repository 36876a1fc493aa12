import RgmNode.Validation.Emergency
import RgmNode.Script.Combine
import RgmNode.Wallet.Encryption
import RgmNode.Validation.PQGate
import RgmNode.BlockTree.Prune
import RgmNode.Wallet.KeyPool
import RgmNode.Wallet.Abandon
import RgmNode.Validation.Reorg
import RgmNode.Script.SigBinding
import RgmNode.Validation.WitnessCommitment
import RgmNode.BlockTree.Linking
import RgmNode.Net.RequestOnce
import RgmNode.Net.BlockTransactionsRequest
import RgmNode.Validation.CoinsRecord
import RgmNode.Net.CompactBlockRebuild
import RgmNode.Address.KeyIO
import RgmNode.Address.SingleError
import RgmNode.Wallet.SelectCoinsMinConf
import RgmNode.Wallet.FeeLoop
import RgmNode.Wallet.KeepKeys
import RgmNode.Validation.MerkleProofs
import RgmNode.Consensus.Retarget
import RgmNode.Consensus.VersionBits
import RgmNode.BlockTree.BlockProof
import RgmNode.Consensus.Locator
import RgmNode.Mempool.TxHashes
import RgmNode.Script.LegacySerializer
import RgmNode.Script.ScriptNum
import RgmNode.Script.Limits
