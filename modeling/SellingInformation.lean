import SellingInformation.Lib.Fallible
import SellingInformation.Lib.Trace
import SellingInformation.Lib.Schedule
import SellingInformation.Lib.TwoPrimes
import SellingInformation.Lib.Order
import SellingInformation.Lib.Homomorphic
import SellingInformation.Lib.Radix
import SellingInformation.Lib.Projection
import SellingInformation.Lib.Guessing
import SellingInformation.Protocol
import SellingInformation.CryptoPP
import SellingInformation.BitcoinUtils
import SellingInformation.BitcoinUtils.Wallet
import SellingInformation.BitcoinUtils.Service
import SellingInformation.Common.Common
import SellingInformation.Common.SquareRoot
import SellingInformation.ShaCommitment
import SellingInformation.TimedCommitment.BitUtils
import SellingInformation.TimedCommitment.Basic
import SellingInformation.TimedCommitment.Opening
import SellingInformation.TimedCommitment.SafeReads
import SellingInformation.TimedCommitment.FindOrder
import SellingInformation.TimedCommitment.Honest
import SellingInformation.TimedCommitment.ForcedOpening
import SellingInformation.TimedCommitment.Soundness
import SellingInformation.SharedSignature.Paillier
import SellingInformation.SharedSignature.Basic
import SellingInformation.SharedSignature.Ecdsa
import SellingInformation.SharedSignature.PlainEcdsa
import SellingInformation.SharedSignature.Blinding
import SellingInformation.SharedSignature.Signing
import SellingInformation.Main.OpenInstance
import SellingInformation.TimedCommitment.Proof
import SellingInformation.TimedCommitment.Transcript
import SellingInformation.TimedCommitment.OneMask
import SellingInformation.Main.TimeLock
import SellingInformation.CutAndChoose
import SellingInformation.CutAndChoose.Trace
import SellingInformation.CutAndChoose.Verdict
import SellingInformation.Main.SellInformation
import SellingInformation.Main.Roots
import SellingInformation.Main.Secrecy
import SellingInformation.Main.Delivery
import SellingInformation.Main.HonestBuyer
import SellingInformation.Main.Choice
import SellingInformation.Main.DerivedKeys
import SellingInformation.Main.Payment
import SellingInformation.Main.Factorise
import SellingInformation.Main.ChainSignature
import SellingInformation.Main.Recovery
import SellingInformation.Main.EventOrder
import SellingInformation.CutAndChoose.Soundness
import SellingInformation.Main.KeptInstance
import SellingInformation.Main.Process
import SellingInformation.Main.RecoveryProgress
import SellingInformation.Main.FairExchange
import SellingInformation.Main.Transactions
import SellingInformation.Main.SellerSide
import SellingInformation.Main.SellerRun
import SellingInformation.Main.PreparedSeller
import SellingInformation.Main.DeliverySoundness
