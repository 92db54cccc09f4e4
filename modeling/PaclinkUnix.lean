import PaclinkUnix.Library.Program
import PaclinkUnix.Mid
import PaclinkUnix.CommandLoop
import PaclinkUnix.Exchange
import PaclinkUnix.InboundSafety
import PaclinkUnix.OutboxLedger
import PaclinkUnix.OutboxSafety
import PaclinkUnix.OutboxSession
import PaclinkUnix.CodeWriter
import PaclinkUnix.Codewords
import PaclinkUnix.BitSource
import PaclinkUnix.CodeReader
import PaclinkUnix.Conf
import PaclinkUnix.Relay
import PaclinkUnix.MessageTitle
import PaclinkUnix.InfoLines
import PaclinkUnix.FrameGrammar
import PaclinkUnix.MessageSlices
import PaclinkUnix.ReadBounds
import PaclinkUnix.HuffmanAlike
import PaclinkUnix.Codec
import PaclinkUnix.DecodeHistory
import PaclinkUnix.AnswerParse
import PaclinkUnix.Corruption
import PaclinkUnix.MessageRecipients
import PaclinkUnix.PickupRule
import PaclinkUnix.Queueing
import PaclinkUnix.Library.CrcRegister
import PaclinkUnix.CrcPolynomial
import PaclinkUnix.BitExchange
import PaclinkUnix.DeepCode
import PaclinkUnix.TokenCodes
import PaclinkUnix.EntropyRoundTrip
import PaclinkUnix.Library.Compression
import PaclinkUnix.CodecRoundTrip
import PaclinkUnix.Library.OrderedForest
import PaclinkUnix.SearchOrder
import PaclinkUnix.WindowScan
import PaclinkUnix.SearchAlike
import PaclinkUnix.EncodeHistory
import PaclinkUnix.SecureLogin
import PaclinkUnix.Completion
import PaclinkUnix.Delivery
import PaclinkUnix.MidExpiry
import PaclinkUnix.Dialogue
import PaclinkUnix.DialogueRun
import PaclinkUnix.DialogueTurns
