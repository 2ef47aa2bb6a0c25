/-
# Decoding: records and values out of tokens

A decoder rebuilds the dictionary from `clear` and `add` records and the values from `value`
records.  It reads with one token of lookahead, which it needs only to see the end of a container
coming: between records none is held.

Values are read by recursion on the nesting that is still allowed (`room`), so a hostile stream
cannot nest deeper than its reader permits.  Everything that repeats takes a bound on the number
of repetitions; each takes at least one byte, so the number of unread bytes is bound enough.
-/
import DictLog.Dictionary
import DictLog.Json.Basic
import DictLog.Run
import DictLog.Token

namespace DictLog

/-- What a record says. -/
inductive Record where
  /-- The version of the format. -/
  | header (version : Nat)
  /-- The dictionary is empty from here on. -/
  | clear
  /-- So many strings were added. -/
  | add (entries : Nat)
  /-- A value, unless its payload was left out. -/
  | value (payloadLength : Nat) (value : Option Json)
  deriving DecidableEq

/-- The kind of a record. -/
def Record.kind : Record → RecordKind
  | header _ => .header
  | clear => .clear
  | add _ => .add
  | value _ _ => .value

/-- A record and its place in the stream. -/
structure Entry where
  /-- The offset of the record's tag. -/
  offset : Nat
  /-- The distance back to the last dictionary record, where the record names it. -/
  backlink : Option Nat
  record : Record
  deriving DecidableEq

/-- What has been decoded so far. -/
structure DecodeStats where
  valueRecords : Nat := 0
  addRecords : Nat := 0
  clearRecords : Nat := 0
  /-- The offset just past the last complete record. -/
  bytesRead : Nat := 0
  deriving DecidableEq, Repr

/-- Whether payloads are decoded or left out by their declared length. -/
inductive Payloads where
  | decoded
  | skipped
  deriving DecidableEq, Repr

/-- A stream being decoded. -/
structure Decoder (σ : Type) where
  tokens : TokenStream σ
  /-- A token that has been read and not yet used. -/
  lookahead : Option Placed := none
  dictionary : Dictionary := .empty
  /-- Whether a header has been read. -/
  started : Bool := false
  /-- Whether `nextUnlessFailed` has failed. -/
  failed : Bool := false
  stats : DecodeStats := {}

namespace Decoder

variable {σ : Type} [Feed σ]

/-- A decoder at the start of a stream. -/
def ofFeed (feed : σ) (limits : Limits) : Decoder σ where
  tokens := .ofFeed feed limits

/-- What the decoder may be asked to enforce. -/
def limits (d : Decoder σ) : Limits :=
  d.tokens.limits

/-- A bound on how often anything can repeat from here on. -/
def bound (d : Decoder σ) : Nat :=
  Feed.unread d.tokens.feed + 1

/-! ## 1. Tokens -/

/-- A step of the token stream. -/
def onTokens {α : Type} (step : EStateM Fault (TokenStream σ) α) : EStateM Fault (Decoder σ) α :=
  onPart Decoder.tokens (fun tokens d => { d with tokens }) step

/-- The next token, the one held back first; none at a clean end. -/
def advance : EStateM Fault (Decoder σ) (Option Placed) := fun d =>
  match d.lookahead with
  | some token => .ok (some token) { d with lookahead := none }
  | none => onTokens TokenStream.next d

/-- The next token of a record that is not complete yet. -/
def require : EStateM Fault (Decoder σ) Placed := do
  match ← advance with
  | some token => return token
  | none => throw .truncated

/-- The next token, which is held back. -/
def peek : EStateM Fault (Decoder σ) Placed := do
  let token ← require
  modify fun d => { d with lookahead := some token }
  return token

/-- The end of a record. -/
def expectTerminator : EStateM Fault (Decoder σ) Unit := do
  let ⟨offset, token⟩ ← require
  match token with
  | .terminator => return ()
  | other => throw (.unexpectedToken .terminator other.tag offset)

/-! ## 2. Values -/

/-- The string at an index of the dictionary. -/
def lookup (index : UInt64) : EStateM Fault (Decoder σ) String := do
  let dictionary := (← get).dictionary
  match dictionary.get? index.toNat with
  | some s => return s
  | none => throw (.indexOutOfRange index.toNat dictionary.size)

/-- The opposite of a magnitude. -/
def negated (magnitude : UInt64) : EStateM Fault (Decoder σ) Json :=
  match Integer.negate? magnitude.toNat with
  | some n => return .number (.integer n)
  | none => throw .integerOverflow

/-- The double of some bits whose tag stands at `offset`. -/
def finite (bits : UInt64) (offset : Nat) : EStateM Fault (Decoder σ) Json :=
  match Double.ofBits? bits with
  | some d => return .number (.double d)
  | none => throw (.notFinite bits offset)

/-- A value that is no container. -/
def scalar (offset : Nat) : Token → EStateM Fault (Decoder σ) Json
  | .null => return .null
  | .bool b => return .bool b
  | .natural n => return .number (.integer (.ofWord n))
  | .negative magnitude => negated magnitude
  | .double bits => finite bits offset
  | .string s => return .string s
  | .reference index => return .string (← lookup index)
  | other => throw (.unexpectedToken .value other.tag offset)

/-- An object's key. -/
def key : EStateM Fault (Decoder σ) String := do
  let ⟨offset, token⟩ ← require
  match token with
  | .string s => return s
  | .reference index => lookup index
  | other => throw (.unexpectedToken .objectKey other.tag offset)

/-- Parts up to a closing token, those already read standing in reverse. -/
def partsUntil {α : Type} (close : Tag) (part : EStateM Fault (Decoder σ) α) :
    Nat → List α → EStateM Fault (Decoder σ) (List α)
  | 0, _ => throw .truncated
  | times + 1, parts => do
    let next ← peek
    if next.token.tag = close then
      discard advance
      return parts.reverse
    else
      let item ← part
      partsUntil close part times (item :: parts)

/-- A container whose opening tag stands at `offset` is one level too deep. -/
def tooDeep {α : Type} (offset : Nat) : EStateM Fault (Decoder σ) α := do
  throw (.limit (.nesting (← get).limits.maxNestingDepth offset))

/-- A value whose containers nest at most `room` deep. -/
def valueWithin (times : Nat) : Nat → EStateM Fault (Decoder σ) Json
  | 0 => do
    let ⟨offset, token⟩ ← require
    match token with
    | .arrayStart => tooDeep offset
    | .objectStart => tooDeep offset
    | other => scalar offset other
  | room + 1 => do
    let ⟨offset, token⟩ ← require
    match token with
    | .arrayStart =>
      let items ← partsUntil .arrayEnd (valueWithin times room) times []
      return .array items
    | .objectStart =>
      let member : EStateM Fault (Decoder σ) (String × Json) := do
        let k ← key
        let v ← valueWithin times room
        return (k, v)
      let members ← partsUntil .objectEnd member times []
      return .object (Members.ofList members)
    | other => scalar offset other

/-- The value of the payload that comes next. -/
def value : EStateM Fault (Decoder σ) Json := do
  let d ← get
  valueWithin d.bound d.limits.maxNestingDepth

/-! ## 3. Records -/

/-- The version in a header. -/
def version : EStateM Fault (Decoder σ) Nat := do
  let ⟨offset, token⟩ ← require
  match token with
  | .natural n =>
    if n.toNat = Format.version then return n.toNat
    else throw (.versionMismatch Format.version n.toNat)
  | other => throw (.unexpectedToken .version other.tag offset)

/-- Add a string to the dictionary. -/
def addString (s : String) : EStateM Fault (Decoder σ) Unit := do
  let d ← get
  let limit := d.limits.maxDictionaryEntries
  if limit ≤ d.dictionary.size then throw (.limit (.dictionary limit))
  else set { d with dictionary := d.dictionary.add s }

/-- The strings of an `add` record up to its end, so many having been added. -/
def additions : Nat → Nat → EStateM Fault (Decoder σ) Nat
  | 0, _ => throw .truncated
  | times + 1, added => do
    let ⟨offset, token⟩ ← require
    match token with
    | .terminator => return added
    | .string s =>
      addString s
      additions times (added + 1)
    | other => throw (.unexpectedToken .dictionaryString other.tag offset)

/-- The rest of a header. -/
def headerRecord : EStateM Fault (Decoder σ) Record := do
  let version ← version
  expectTerminator
  modify fun d => { d with started := true }
  return .header version

/-- The rest of a `clear` record. -/
def clearRecord : EStateM Fault (Decoder σ) Record := do
  expectTerminator
  modify fun d =>
    { d with
      dictionary := .empty
      stats := { d.stats with clearRecords := d.stats.clearRecords + 1 } }
  return .clear

/-- The rest of an `add` record. -/
def addRecord : EStateM Fault (Decoder σ) Record := do
  let entries ← additions (← get).bound 0
  modify fun d => { d with stats := { d.stats with addRecords := d.stats.addRecords + 1 } }
  return .add entries

/-- The value of a payload of so many bytes, in the record at `offset`. -/
def payload (offset length : Nat) : EStateM Fault (Decoder σ) Json := do
  let start := (← get).tokens.offset
  let v ← value
  let actual := (← get).tokens.offset - start
  if actual = length then return v else throw (.payloadLength offset length actual)

/-- The payload of so many bytes in the record at `offset`, if payloads are decoded. -/
def payloadIf (payloads : Payloads) (offset length : Nat) :
    EStateM Fault (Decoder σ) (Option Json) :=
  match payloads with
  | .decoded => return some (← payload offset length)
  | .skipped => do
    onTokens (TokenStream.skip length)
    return none

/-- The rest of a `value` record at `offset`. -/
def valueRecord (payloads : Payloads) (offset length : Nat) :
    EStateM Fault (Decoder σ) Record := do
  let v ← payloadIf payloads offset length
  expectTerminator
  modify fun d => { d with stats := { d.stats with valueRecords := d.stats.valueRecords + 1 } }
  return .value length v

/-- The record that a token at `offset` opens. -/
def opened (payloads : Payloads) (offset : Nat) : Token → EStateM Fault (Decoder σ) Entry
  | .header => return ⟨offset, none, ← headerRecord⟩
  | .clear => return ⟨offset, none, ← clearRecord⟩
  | .add backlink => return ⟨offset, some backlink, ← addRecord⟩
  | .value backlink length => return ⟨offset, some backlink, ← valueRecord payloads offset length⟩
  | other => throw (.invalidRecordStart other.tag offset)

/-- Only a header may come first. -/
def checkStarted (token : Token) : EStateM Fault (Decoder σ) Unit := do
  if (← get).started ∨ token = .header then return () else throw .missingHeader

/-- Count what has been read up to here. -/
def markRead : EStateM Fault (Decoder σ) Unit :=
  modify fun d => { d with stats := { d.stats with bytesRead := d.tokens.offset } }

/-- The next record; none at a clean end. -/
def nextRecord (payloads : Payloads) : EStateM Fault (Decoder σ) (Option Entry) := do
  match ← advance with
  | none =>
    markRead
    return none
  | some ⟨offset, token⟩ =>
    checkStarted token
    let entry ← opened payloads offset token
    markRead
    return some entry

/-- The next value, other records passed over; at most so many records. -/
def nextValueWithin : Nat → EStateM Fault (Decoder σ) (Option Json)
  | 0 => return none
  | times + 1 => do
    match ← nextRecord .decoded with
    | none => return none
    | some entry =>
      match entry.record with
      | .value _ v => return v
      | _ => nextValueWithin times

/-- The next value; none at a clean end. -/
def nextValue : EStateM Fault (Decoder σ) (Option Json) := do
  nextValueWithin (← get).bound

/-- The next value; none at a clean end and after any failure of this step. -/
def nextUnlessFailed : EStateM Fault (Decoder σ) (Option Json) := fun d =>
  if d.failed then .ok none d
  else
    match nextValue d with
    | .ok v d => .ok v d
    | .error fault d => .error fault { d with failed := true }

/-! ## 4. Whole streams -/

/-- All records up to the end or the first failure. -/
def records (payloads : Payloads) (d : Decoder σ) : Run (Decoder σ) Entry :=
  Run.ask (nextRecord payloads) d.bound d

/-- All values up to the end or the first failure. -/
def values (d : Decoder σ) : Run (Decoder σ) Json :=
  Run.ask nextUnlessFailed d.bound d

end Decoder

/-- The values of a stream. -/
def decodeValues (bytes : List UInt8) (limits : Limits) : Except Fault (List Json) :=
  (Decoder.ofFeed (Tape.ofBytes bytes) limits).values.toExcept

end DictLog
