/-
# Tokens, and reading them off a feed

A token is a tag with what belongs to it: a number, a double, a string, or the lengths in the
head of a record.  `TokenStream.next` reads one token and checks what can be checked without its
neighbours, above all **backlinks**: an `add` or `value` record names the distance to the last record
that changed the dictionary, and the stream knows where that was.  A faulty byte is taken all the
same, so that reading can go on behind it.
-/
import DictLog.Feed
import DictLog.Number.Double
import DictLog.Options

namespace DictLog

/-- A tag and what belongs to it. -/
inductive Token where
  | header
  | clear
  | add (backlink : Nat)
  | value (backlink payloadLength : Nat)
  | terminator
  | null
  | bool (b : Bool)
  | natural (n : UInt64)
  | negative (magnitude : UInt64)
  | double (bits : UInt64)
  | string (s : String)
  | reference (index : UInt64)
  | arrayStart
  | arrayEnd
  | objectStart
  | objectEnd
  deriving DecidableEq

/-- The tag a token opens with. -/
def Token.tag : Token → Tag
  | header => .header
  | clear => .clear
  | add _ => .add
  | value _ _ => .value
  | terminator => .terminator
  | null => .null
  | bool true => .boolTrue
  | bool false => .boolFalse
  | natural _ => .natural
  | negative _ => .negative
  | double _ => .double
  | string _ => .string
  | reference _ => .reference
  | arrayStart => .arrayStart
  | arrayEnd => .arrayEnd
  | objectStart => .objectStart
  | objectEnd => .objectEnd

/-- A token and the offset of its tag. -/
structure Placed where
  offset : Nat
  token : Token
  deriving DecidableEq

/-- A feed read as tokens. -/
structure TokenStream (σ : Type) where
  feed : σ
  limits : Limits
  /-- The offset of the last record that changed the dictionary. -/
  lastDictionary : Nat := 0
  /-- Whether reading a token has failed. -/
  failed : Bool := false
  deriving DecidableEq

namespace TokenStream

variable {σ : Type} [Feed σ]

/-- The tokens of a feed. -/
def ofFeed (feed : σ) (limits : Limits) : TokenStream σ where
  feed
  limits

/-- The offset of the next byte. -/
def offset (t : TokenStream σ) : Nat :=
  Feed.offset t.feed

/-- A step of the feed. -/
def onFeed {α : Type} (step : EStateM Fault σ α) : EStateM Fault (TokenStream σ) α :=
  onPart TokenStream.feed (fun feed t => { t with feed }) step

/-- A varint. -/
def varint : EStateM Fault (TokenStream σ) UInt64 :=
  onFeed Feed.varint

/-- The backlink of a record that starts at `offset`. -/
def backlink (offset : Nat) : EStateM Fault (TokenStream σ) Nat := do
  let distance ← varint
  let last := (← get).lastDictionary
  if last + distance.toNat = offset then return distance.toNat
  else throw (.desync offset last distance.toNat)

/-- From here on, the record at `offset` is the last that changed the dictionary. -/
def markDictionary (offset : Nat) : EStateM Fault (TokenStream σ) Unit :=
  modify fun t => { t with lastDictionary := offset }

/-- A string of so many bytes. -/
def textOfLength (length : Nat) : EStateM Fault (TokenStream σ) String := do
  let bytes ← onFeed (Feed.take length)
  match Utf8.decode bytes with
  | .ok s => return s
  | .error fault => throw (.invalidUtf8 bytes fault)

/-- The text of a string literal whose tag stands at `offset`. -/
def text (offset : Nat) : EStateM Fault (TokenStream σ) String := do
  let length ← varint
  let limit := (← get).limits.maxStringLength
  if limit < length.toNat then throw (.limit (.string length.toNat offset limit))
  else textOfLength length.toNat

/-- The rest of the head of a `value` record that starts at `offset`. -/
def valueHead (offset : Nat) : EStateM Fault (TokenStream σ) Token := do
  let backlink ← backlink offset
  let length ← varint
  let limit := (← get).limits.maxPayloadLength
  if limit < length.toNat then throw (.limit (.payload length.toNat offset limit))
  else return .value backlink length.toNat

/-- The line feed of a terminator. -/
def terminatorEnd : EStateM Fault (TokenStream σ) Token := do
  let place := (← get).offset
  let found ← onFeed Feed.requireByte
  if found = 0x0A then return .terminator else throw (.framing place found)

/-- What belongs to a tag that stands at `offset`. -/
def body (offset : Nat) : Tag → EStateM Fault (TokenStream σ) Token
  | .header => return .header
  | .clear => do
    markDictionary offset
    return .clear
  | .add => do
    let backlink ← backlink offset
    markDictionary offset
    return .add backlink
  | .value => valueHead offset
  | .terminator => terminatorEnd
  | .null => return .null
  | .boolTrue => return .bool true
  | .boolFalse => return .bool false
  | .natural => return .natural (← varint)
  | .negative => return .negative (← varint)
  | .double => return .double (Double.ofLittleEndian (← onFeed (Feed.array 8)))
  | .string => return .string (← text offset)
  | .reference => return .reference (← varint)
  | .arrayStart => return .arrayStart
  | .arrayEnd => return .arrayEnd
  | .objectStart => return .objectStart
  | .objectEnd => return .objectEnd

/-- The token that opens with a byte that stands at `offset`. -/
def opened (offset : Nat) (byte : UInt8) : EStateM Fault (TokenStream σ) Placed :=
  match Tag.ofByte? byte with
  | some tag => return ⟨offset, ← body offset tag⟩
  | none => throw (.unknownTag byte offset)

/-- The next token; none at a clean end. -/
def scan : EStateM Fault (TokenStream σ) (Option Placed) := do
  let offset := (← get).offset
  match ← onFeed Feed.nextByte with
  | some byte => return some (← opened offset byte)
  | none => return none

/-- The next token; none at a clean end.  A failure is remembered. -/
def next : EStateM Fault (TokenStream σ) (Option Placed) := fun t =>
  match scan t with
  | .ok token t => .ok token t
  | .error fault t => .error fault { t with failed := true }

/-- The next token; none at a clean end and after any failure to read one. -/
def nextUnlessFailed : EStateM Fault (TokenStream σ) (Option Placed) := do
  if (← get).failed then return none else next

/-- Leave out a payload of so many bytes. -/
def skip (length : Nat) : EStateM Fault (TokenStream σ) Unit :=
  onFeed (Feed.skip length)

end TokenStream

end DictLog
