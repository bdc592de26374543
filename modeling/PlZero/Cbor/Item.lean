import PlZero.Text.Numeral

/-! CBOR data items, the reader of well-formed items, and the heads that canonical encoding writes.
The reader refuses deep nesting and long collections, so that it ends on any input. Arrays, maps and
tags are nested; a tag takes a level of nesting only where it stands directly in another tag. -/

namespace PlZero.Cbor

open PlZero.Text

/-- A data item. A text keeps the chunks it came in; a map is the list of its pairs, repeated keys
included. -/
inductive Item where
  | integer (value : Int)
  | bytes (content : Bytes)
  | text (chunks : List Bytes)
  | array (items : List Item)
  | map (pairs : List (Item × Item))
  | tag (number : Nat) (content : Item)
  | simple (number : Nat)
  | float

/-- The argument of an item's head; an open collection or string ends at a break. -/
inductive Argument where
  | value (number : Nat)
  | openEnded
  deriving DecidableEq, Repr

/-- The start of an item: its major type, the lower five bits of its first byte, and the argument. -/
structure Head where
  major : Nat
  info : Nat
  argument : Argument
  deriving DecidableEq, Repr

/-- Reads a given number of bytes. -/
def take? (count : Nat) (bytes : Bytes) : Option (Bytes × Bytes) :=
  let taken := bytes.take count
  if taken.length = count then some (taken, bytes.drop count) else none

/-- Reads an argument of a given width in bytes. -/
def wideArgument (width : Nat) (bytes : Bytes) : Option (Argument × Bytes) :=
  (take? width bytes).map fun (digits, rest) => (.value (BigEndian.number digits), rest)

/-- Reads the argument that belongs to the lower bits of a first byte. -/
def argument? (info : Nat) (bytes : Bytes) : Option (Argument × Bytes) :=
  if info < 24 then some (.value info, bytes)
  else
    match info with
    | 24 => wideArgument 1 bytes
    | 25 => wideArgument 2 bytes
    | 26 => wideArgument 4 bytes
    | 27 => wideArgument 8 bytes
    | 31 => some (.openEnded, bytes)
    | _ => none

/-- Reads the head of an item. -/
def head? : Bytes → Option (Head × Bytes)
  | [] => none
  | first :: rest => do
    let info := first.toNat % 32
    let (argument, behind) ← argument? info rest
    some (⟨first.toNat / 32, info, argument⟩, behind)

/-- The byte that ends an open collection or string. -/
def breakByte : UInt8 := 0xFF

/-- The longest array, and the greatest number of pairs in a map. -/
def sizeLimit : Nat := 131072

/-- How many levels arrays, maps and tags may be nested. -/
def levelLimit : Nat := 32

/-- Reads the chunks of an open string of the given major type, up to its break; there are fewer than
`fuel` of them. -/
def chunks? (major : Nat) : Nat → Bytes → List Bytes → Option (List Bytes × Bytes)
  | 0, _, _ => none
  | fuel + 1, bytes, found =>
    match bytes with
    | [] => none
    | first :: rest =>
      if first == breakByte then some (found.reverse, rest)
      else
        match head? bytes with
        | some (⟨kind, _, .value length⟩, behind) =>
          if kind = major then
            match take? length behind with
            | some (chunk, remainder) => chunks? major fuel remainder (chunk :: found)
            | none => none
          else none
        | _ => none

/-- Reads the chunks of a string behind its head; a string of known length is one chunk. -/
def stringChunks? (head : Head) (bytes : Bytes) : Option (List Bytes × Bytes) :=
  match head.argument with
  | .value length => (take? length bytes).map fun (content, rest) => ([content], rest)
  | .openEnded => chunks? head.major (bytes.length + 1) bytes []

/-- What reads an item from the head of a byte list. -/
abbrev Reader := Bytes → Option (Item × Bytes)

/-- Reads a given number of items; `found` holds those before, the latest first. -/
def times (reader : Reader) : Nat → Bytes → List Item → Option (List Item × Bytes)
  | 0, bytes, found => some (found.reverse, bytes)
  | count + 1, bytes, found =>
    match reader bytes with
    | some (item, rest) => times reader count rest (item :: found)
    | none => none

/-- Reads items up to a break, at most `limit` of them; `found` holds those before, the latest
first. -/
def untilBreak (reader : Reader) (limit : Nat) (bytes : Bytes) (found : List Item) :
    Option (List Item × Bytes) :=
  match bytes with
  | [] => none
  | first :: rest =>
    if first == breakByte then some (found.reverse, rest)
    else
      match limit with
      | 0 => none
      | left + 1 =>
        match reader bytes with
        | some (item, remainder) => untilBreak reader left remainder (item :: found)
        | none => none
  termination_by limit

/-- Reads the members of a collection that holds `each` items per entry. -/
def members? (reader : Reader) (each : Nat) (argument : Argument) (bytes : Bytes) :
    Option (List Item × Bytes) :=
  match argument with
  | .value count => if sizeLimit < count then none else times reader (each * count) bytes []
  | .openEnded => untilBreak reader (each * sizeLimit) bytes []

/-- Keys with the values behind them, unless a key is left over. -/
def paired : List Item → Option (List (Item × Item))
  | [] => some []
  | [_] => none
  | key :: value :: rest => (paired rest).map ((key, value) :: ·)

/-- Reads a collection behind its head, its members by `reader`. -/
def collection? (reader : Reader) (head : Head) (bytes : Bytes) : Option (Item × Bytes) :=
  if head.major = 4 then
    (members? reader 1 head.argument bytes).map fun (items, rest) => (.array items, rest)
  else do
    let (items, rest) ← members? reader 2 head.argument bytes
    let pairs ← paired items
    some (.map pairs, rest)

/-- The simple value or float of a head of major type 7. -/
def primitive? (info argument : Nat) : Option Item :=
  if info < 24 then some (.simple argument)
  else if info = 24 then if 32 ≤ argument then some (.simple argument) else none
  else some .float

/-- Reads an item that nests nothing, behind its head. -/
def scalar? (head : Head) (bytes : Bytes) : Option (Item × Bytes) :=
  match head.major, head.argument with
  | 0, .value value => some (.integer value, bytes)
  | 1, .value value => some (.integer (-1 - value), bytes)
  | 2, _ => (stringChunks? head bytes).map fun (chunks, rest) => (.bytes chunks.flatten, rest)
  | 3, _ => (stringChunks? head bytes).map fun (chunks, rest) => (.text chunks, rest)
  | 7, .value value => (primitive? head.info value).map fun item => (item, bytes)
  | _, _ => none

/-- The number of the tag at the head of a byte list. -/
def tag? (bytes : Bytes) : Option (Nat × Bytes) :=
  match head? bytes with
  | some (⟨6, _, .value number⟩, rest) => some (number, rest)
  | _ => none

/-- A reader before which one more tag may stand. -/
def allowTag (reader : Reader) : Reader := fun bytes =>
  match tag? bytes with
  | some (number, rest) => (reader rest).map fun (item, behind) => (.tag number item, behind)
  | none => reader bytes

/-- Reads an item with the given number of levels left, each tag taking one. -/
def tightItem? : Nat → Reader
  | 0 => fun bytes => do
    let (head, rest) ← head? bytes
    scalar? head rest
  | levels + 1 => fun bytes => do
    let (head, rest) ← head? bytes
    match head.major, head.argument with
    | 4, _ | 5, _ => collection? (allowTag (tightItem? levels)) head rest
    | 6, .value number =>
      (tightItem? levels rest).map fun (item, behind) => (.tag number item, behind)
    | _, _ => scalar? head rest

/-- Reads an item from the head of a byte list. -/
def item? : Reader :=
  allowTag (tightItem? levelLimit)

/-- The item that a byte list holds and nothing else. -/
def read? (bytes : Bytes) : Option Item :=
  match item? bytes with
  | some (item, []) => some item
  | _ => none

/-- The shortest head of an item with the given major type and argument. -/
def headBytes (major argument : Nat) : Bytes :=
  let start := 32 * major
  if argument < 24 then [(start + argument).toUInt8]
  else if argument < 256 then (start + 24).toUInt8 :: BigEndian.bytes 1 argument
  else if argument < 65536 then (start + 25).toUInt8 :: BigEndian.bytes 2 argument
  else if argument < 4294967296 then (start + 26).toUInt8 :: BigEndian.bytes 4 argument
  else (start + 27).toUInt8 :: BigEndian.bytes 8 argument

/-- The bytes of an integer. -/
def integerBytes : Int → Bytes
  | .ofNat value => headBytes 0 value
  | .negSucc value => headBytes 1 value

end PlZero.Cbor
