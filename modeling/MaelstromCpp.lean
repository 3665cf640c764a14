import MaelstromCpp.MessageCodec
import MaelstromCpp.Correlation
import MaelstromCpp.Handlers
import MaelstromCpp.Lib.WorkLedger
import MaelstromCpp.NodeInvariants
import MaelstromCpp.ExactlyOnce
import MaelstromCpp.Acceptance
import MaelstromCpp.Replies
import MaelstromCpp.Stranded
import MaelstromCpp.Termination
import MaelstromCpp.Faults
import MaelstromCpp.Total
import MaelstromCpp.Answers
import MaelstromCpp.Stop
import MaelstromCpp.InitOk
import MaelstromCpp.Uniqueness
import MaelstromCpp.Base64Standard
import MaelstromCpp.Base64Terminator
import MaelstromCpp.Lib.Loop
import MaelstromCpp.Lib.Utf8
import MaelstromCpp.Lexer
import MaelstromCpp.Parser
import MaelstromCpp.Serializer
import MaelstromCpp.Grammar
import MaelstromCpp.Escaping
import MaelstromCpp.Decimal
import MaelstromCpp.Strings
import MaelstromCpp.Numbers
import MaelstromCpp.Text
import MaelstromCpp.RoundTrip
import MaelstromCpp.Parsed
import MaelstromCpp.Lines
import MaelstromCpp.Output
import MaelstromCpp.Wire
import MaelstromCpp.Lib.Binary64
import MaelstromCpp.Dtoa
import MaelstromCpp.Grisu
import MaelstromCpp.Numerals
import MaelstromCpp.FloatText
import MaelstromCpp.Floats
import MaelstromCpp.Echo
