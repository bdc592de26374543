import PlZero.Text.Glyph
import PlZero.Text.Numeral
import PlZero.Text.LetterCase

/-! The addresses of archives. An address is a path, behind which settings may stand after a question
mark, or it starts with `file:`; then its characters may be escaped, and its settings also say how the
file is opened. Some names stand for an archive that is kept in memory. -/

namespace PlZero.Archive

open PlZero.Text

/-- How the file of an archive is opened: only to be read, only if it is there, or made if it is not; or
there is no file. -/
inductive Access where
  | readOnly
  | existing
  | create
  | memory
  deriving DecidableEq, Repr

structure Address where
  /-- The path of the file, unless the archive is kept in memory. -/
  path : Option String
  access : Access := .create
  /-- Whether the settings that are looked at once the file is open can be met. -/
  isAccepted : Bool := true
  deriving DecidableEq, Repr

namespace Address

/-- A text before and behind the first separator. -/
def cut (separator : Char) (text : List Char) : List Char × List Char :=
  (text.takeWhile fun sign => sign != separator,
    (text.dropWhile fun sign => sign != separator).drop 1)

/-- The pieces of a text between separators. -/
def pieces (separator : Char) : List Char → List (List Char)
  | [] => [[]]
  | sign :: rest =>
    if sign = separator then [] :: pieces separator rest
    else
      match pieces separator rest with
      | [] => [[sign]]
      | piece :: more => (sign :: piece) :: more

/-- The byte of two hexadecimal digits. -/
def hexByte? (high low : Char) : Option UInt8 := do
  some (16 * (← hexValue? high) + (← hexValue? low)).toUInt8

/-- Bytes as a text; those that are no character become the replacement character. -/
def asText (bytes : Bytes) : String :=
  String.ofList ((glyphs bytes).map fun glyph => glyph.char?.getD (Char.ofNat 0xFFFD))

/-- The name or value of a setting with its escapes undone; all escapes must be well-formed, and a plus
sign stands for a space. -/
def unescapeSetting? : List Char → Option Bytes
  | [] => some []
  | '%' :: high :: low :: rest => do some ((← hexByte? high low) :: (← unescapeSetting? rest))
  | sign :: rest =>
    if sign = '%' then none
    else
      (unescapeSetting? rest).map fun bytes =>
        (if sign = '+' then [0x20] else encodeChar sign) ++ bytes

/-- The settings of a query, in order. -/
def settings? (query : List Char) : Option (List (String × String)) :=
  ((pieces '&' query).filter fun piece => !piece.isEmpty).mapM fun piece =>
    if piece.contains ';' then none
    else
      let (name, value) := cut '=' piece
      do some (asText (← unescapeSetting? name), asText (← unescapeSetting? value))

/-- The values of a setting. -/
def valuesOf (name : String) (settings : List (String × String)) : List String :=
  (settings.filter fun setting => setting.1 == name).map Prod.snd

/-- The value of a setting that is given first, or nothing. -/
def valueOf (name : String) (settings : List (String × String)) : String :=
  (settings.lookup name).getD ""

/-- The driver that settings choose; they must agree on it. -/
def driver? (settings : List (String × String)) : Option String :=
  (valuesOf "vfs" settings).foldlM
    (fun chosen value => if chosen ≠ "" ∧ chosen ≠ value then none else some value) ""

/-- The drivers that keep archives in files. -/
def fileDrivers : List String := ["unix", "unix-none", "unix-dotfile", "unix-excl"]

/-- The driver that keeps archives in memory. -/
def memoryDriver : String := "memdb"

/-- Whether there is a driver of a name. -/
def isDriver (name : String) : Bool :=
  name == memoryDriver || fileDrivers.contains name

/-- What may stand in a word of a pragma. -/
def isWordSign (sign : Char) : Bool :=
  isLetter sign || isDigit sign || sign == '_' || sign == '-' || sign == '.' || sign == '\''

/-- Whether a text is a pragma: a name, and perhaps a value behind an equals sign or in brackets. -/
def isPragma (text : String) : Bool :=
  let signs := text.toList.filter fun sign => sign != ' '
  match signs.takeWhile isWordSign, signs.dropWhile isWordSign with
  | [], _ => false
  | _, [] => true
  | _, '=' :: value => !value.isEmpty && value.all isWordSign
  | _, '(' :: rest =>
    match rest.takeWhile isWordSign, rest.dropWhile isWordSign with
    | _ :: _, [')'] => true
    | _, _ => false
  | _, _ => false

/-- Whether the settings that are looked at once the file is open can be met. The lock of transactions is
not looked at if a format of times is set. -/
def isMet (settings : List (String × String)) : Bool :=
  let format := valueOf "_time_format" settings
  let lock := valueOf "_txlock" settings
  (valuesOf "_pragma" settings).all isPragma
    && (if format ≠ "" then format == "sqlite"
        else lock == "" || ["deferred", "immediate", "exclusive"].contains (small lock))

/-- The name of an archive that is kept in memory. -/
def memoryName : String := ":memory:"

/-- Whether a name stands for an archive in memory. -/
def isMemoryName (name : String) : Bool :=
  name == "" || name == memoryName

/-- A part of a `file:` address with its escapes undone; an escaped NUL ends it, and what is no escape
stays as it is. -/
def unescapePart : List Char → Bytes
  | [] => []
  | '%' :: high :: low :: rest =>
    match hexByte? high low with
    | some byte => if byte = 0 then [] else byte :: unescapePart rest
    | none => encodeChar '%' ++ unescapePart (high :: low :: rest)
  | sign :: rest => encodeChar sign ++ unescapePart rest

/-- What is left of a `file:` address behind its authority, which may only be this machine. -/
def skipAuthority? : List Char → Option (List Char)
  | '/' :: '/' :: rest =>
    let host := String.ofList (rest.takeWhile fun sign => sign != '/')
    if host = "" ∨ host = "localhost" then some (rest.dropWhile fun sign => sign != '/') else none
  | text => some text

/-- How far-reaching an access is; settings may only narrow it. -/
def Access.reach : Access → Nat
  | .readOnly => 1
  | .existing => 2
  | .create => 6
  | .memory => 128

/-- The access that a setting names. -/
def accessOf? : String → Option Access
  | "ro" => some .readOnly
  | "rw" => some .existing
  | "rwc" => some .create
  | "memory" => some .memory
  | _ => none

/-- Takes a setting of a `file:` address for the access and the driver. -/
def choose? (chosen : Access × String) (setting : String × String) : Option (Access × String) :=
  match setting.1 with
  | "vfs" => if isDriver setting.2 then some (chosen.1, setting.2) else none
  | "cache" => if setting.2 = "shared" ∨ setting.2 = "private" then some chosen else none
  | "mode" => do
    let access ← accessOf? setting.2
    if access = .memory ∨ Access.reach access ≤ Access.reach chosen.1 then some (access, chosen.2)
    else none
  | _ => some chosen

/-- The settings of a `file:` address; those without a name are left out. -/
def partSettings (query : List Char) : List (String × String) :=
  ((pieces '&' query).map fun piece =>
    let (name, value) := cut '=' piece
    (asText (unescapePart name), asText (unescapePart value))).filter fun setting =>
      setting.1 != ""

/-- An archive in a file, or in memory if its name, the access or the driver says so. -/
def named (name : String) (access : Access) (driver : String) : Address :=
  { path := if isMemoryName name || access = .memory || driver == memoryDriver then none else some name
    access := access }

/-- The address that starts with `file:`, from there on. -/
def ofScheme? (driver : String) (text : List Char) : Option Address := do
  let rest ← skipAuthority? (cut '#' text).1
  let (name, query) := cut '?' rest
  let (access, driver) ← (partSettings query).foldlM choose? (.create, driver)
  some (named (asText (unescapePart name)) access driver)

/-- The start of an address with escapes. -/
def scheme : List Char := ['f', 'i', 'l', 'e', ':']

/-- The part of an address before the question mark and the query behind it; an address that starts with
one has none. -/
def splitQuery (address : List Char) : List Char × List Char :=
  if address.head? = some '?' then (address, []) else cut '?' address

/-- Reads an address. What is behind a NUL is only searched for settings. -/
def read? (address : String) : Option Address := do
  let signs := address.toList
  let (plain, query) := splitQuery signs
  let settings ← settings? query
  let driver ← driver? settings
  if driver ≠ "" ∧ !isDriver driver then none
  else
    let heard := fun (text : List Char) => (cut (Char.ofNat 0) text).1
    let found ←
      if scheme.isPrefixOf (heard signs) then ofScheme? driver ((heard signs).drop scheme.length)
      else some (named (String.ofList (heard plain)) .create driver)
    some { found with isAccepted := isMet settings }

end Address

end PlZero.Archive
