import DictLog.Buffered
import DictLog.Decoder
import DictLog.Encoder
import DictLog.Listing.Text
import DictLog.Main
import DictLog.Ndjson.Decode
import DictLog.Ndjson.Encode
import DictLog.Reading
import DictLog.Session
import DictLog.Proofs.Truncation
import DictLog.Proofs.Lockstep
import DictLog.Proofs.Session
import DictLog.Proofs.Online
import DictLog.Proofs.Epoch
import DictLog.Proofs.Skipping
import DictLog.Proofs.Damage
import DictLog.Proofs.Relocation
import DictLog.Proofs.Copied
import DictLog.Proofs.Needed
import DictLog.Proofs.Announced
import DictLog.Proofs.Narrow
import DictLog.Proofs.Lost
import DictLog.Proofs.Lines
import DictLog.Proofs.Hostile
import DictLog.Proofs.Shape
import DictLog.Proofs.OnePass
import DictLog.Proofs.Accounts
import DictLog.Proofs.Decimals
import DictLog.Proofs.Numerals
import DictLog.Proofs.Printed
import DictLog.Proofs.Documents
import DictLog.Proofs.Canonical
import DictLog.Proofs.Independence
import DictLog.Proofs.Chunks
import DictLog.Proofs.Compatible
import DictLog.Proofs.Withheld
import DictLog.Proofs.Interning
import DictLog.Proofs.Levels
import DictLog.Proofs.Brackets
import DictLog.Proofs.Counting
import DictLog.Proofs.Tiling
import DictLog.Proofs.Threshold
import DictLog.Proofs.Declared
import DictLog.Proofs.Verdicts
import DictLog.Proofs.Shortest
import DictLog.Proofs.LeastThreshold
import DictLog.Proofs.Unbounded
import DictLog.Proofs.Progress
import DictLog.Proofs.Rows
import DictLog.Proofs.Delimited
import DictLog.Proofs.Indexed
