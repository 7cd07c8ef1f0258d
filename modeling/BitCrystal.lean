import BitCrystal.Soundness.AddressFile
import BitCrystal.Soundness.AddressGroups
import BitCrystal.Soundness.Base58
import BitCrystal.Soundness.BaseTexts
import BitCrystal.Soundness.BigNumCodec
import BitCrystal.Soundness.BlockLocator
import BitCrystal.Soundness.BloomFilter
import BitCrystal.Soundness.BoundedContainers
import BitCrystal.Soundness.BufferedFile
import BitCrystal.Soundness.CachedAmounts
import BitCrystal.Soundness.CanonicalSignature
import BitCrystal.Soundness.CheckQueue
import BitCrystal.Soundness.CheckpointLockIn
import BitCrystal.Soundness.CoinRoundTrip
import BitCrystal.Soundness.CoinStack
import BitCrystal.Soundness.CreateTransaction
import BitCrystal.Soundness.DataStream
import BitCrystal.Soundness.DeliveryOrder
import BitCrystal.Soundness.EmailHashForm
import BitCrystal.Soundness.FileSpace
import BitCrystal.Soundness.FinalAlert
import BitCrystal.Soundness.FlushSurvival
import BitCrystal.Soundness.GetWorkSession
import BitCrystal.Soundness.HostTexts
import BitCrystal.Soundness.Issuance
import BitCrystal.Soundness.ListTransactions
import BitCrystal.Soundness.MedianTime
import BitCrystal.Soundness.MinimumWork
import BitCrystal.Soundness.MoneyText
import BitCrystal.Soundness.MoveEntries
import BitCrystal.Soundness.MultisigAddress
import BitCrystal.Soundness.MultisigSigning
import BitCrystal.Soundness.NetworkGroups
import BitCrystal.Soundness.NetworkTime
import BitCrystal.Soundness.OrphanIndex
import BitCrystal.Soundness.PartialMerkleTree
import BitCrystal.Soundness.PassphraseChange
import BitCrystal.Soundness.PoolDependency
import BitCrystal.Soundness.ReorderTransactions
import BitCrystal.Soundness.Restart
import BitCrystal.Soundness.Resurrection
import BitCrystal.Soundness.ScriptResources
import BitCrystal.Soundness.ScriptRoundTrip
import BitCrystal.Soundness.SigOps
import BitCrystal.Soundness.SignRawTransaction
import BitCrystal.Soundness.SignatureHash
import BitCrystal.Soundness.Transport
import BitCrystal.Soundness.UnitTexts
import BitCrystal.Soundness.VarInt
import BitCrystal.Soundness.VersionHandshake
import BitCrystal.Soundness.WalletRecords
