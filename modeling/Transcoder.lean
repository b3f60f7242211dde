import Transcoder.Engine.Handle
import Transcoder.Main
import Transcoder.Proofs.Cursor.BitList
import Transcoder.Proofs.Cursor.RoundTrip
import Transcoder.Proofs.Engine.Closing
import Transcoder.Proofs.Engine.Depth
import Transcoder.Proofs.Engine.Ending
import Transcoder.Proofs.Engine.Pressure
import Transcoder.Proofs.Engine.Reframing
import Transcoder.Proofs.Engine.Shrinking
import Transcoder.Proofs.Engine.Streaming
import Transcoder.Proofs.Engine.Truncation
import Transcoder.Proofs.Schema.Outlines
import Transcoder.Proofs.Session.Enclosing
import Transcoder.Proofs.Session.Ends
import Transcoder.Proofs.Session.Inside
import Transcoder.Proofs.Session.Ledger
import Transcoder.Proofs.Session.Moving
import Transcoder.Proofs.Session.Refusals
import Transcoder.Proofs.Session.Within
import Transcoder.Proofs.ValueList.Faithful
