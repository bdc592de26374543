import PlZero.Command.Number
import PlZero.Text.Glyph

/-! Flags of commands. A flag is given by its name behind two dashes or by its letter behind one; letters
may stand together. A value stands behind an equal sign or, for flags that need one, in the next word.
Two dashes alone end the flags. -/

namespace PlZero.Command

open PlZero.Text

/-- What a flag holds: whether it was given, a text, or how often it was given. -/
inductive FlagKind where
  | switch
  | text
  | count
  deriving DecidableEq, Repr

structure Flag where
  name : String
  letter : Option Char := none
  kind : FlagKind
  deriving DecidableEq, Repr

namespace Flag

/-- The value of a flag that is given without one; texts need theirs. -/
def implied? (flag : Flag) : Option String :=
  match flag.kind with
  | .switch => some "true"
  | .count => some "+1"
  | .text => none

/-- A flag as messages name it. -/
def label (flag : Flag) : String :=
  match flag.letter with
  | some letter => "-" ++ letter.toString ++ ", --" ++ flag.name
  | none => "--" ++ flag.name

end Flag

/-- Why words are no flags of a command. -/
inductive FlagError where
  | badForm (word : String)
  | unknown (name : String)
  | unknownLetter (letter : Char) (group : String)
  | valueMissing (name : String)
  | letterValueMissing (letter : Char) (group : String)
  | invalidValue (value : String) (flag : Flag) (error : ValueError)
  deriving DecidableEq, Repr

namespace FlagError

/-- A letter as messages show it. Of a character outside ASCII only the lead byte counts, which shows
as one and the same letter. -/
def shownLetter (letter : Char) : Char :=
  if letter.toNat < 0x80 then letter else Char.ofNat 0xC3

def message : FlagError → String
  | badForm word => "bad flag syntax: " ++ word
  | unknown name => "unknown flag: --" ++ name
  | unknownLetter letter group =>
    "unknown shorthand flag: " ++ quoteLone (shownLetter letter) ++ " in -" ++ group
  | valueMissing name => "flag needs an argument: --" ++ name
  | letterValueMissing letter group =>
    "flag needs an argument: " ++ quoteLone (shownLetter letter) ++ " in -" ++ group
  | invalidValue value flag error =>
    "invalid argument " ++ quote value ++ " for " ++ quote flag.label ++ " flag: " ++ error.message

end FlagError

/-- The value that a flag was given. -/
inductive Setting where
  | switch (value : Bool)
  | text (value : String)
  | count (value : Int)
  deriving DecidableEq, Repr

/-- The flags that were given, with their values. -/
abbrev Settings := List (String × Setting)

namespace Settings

def switch? (settings : Settings) (name : String) : Option Bool :=
  match settings.lookup name with
  | some (.switch value) => some value
  | _ => none

def text? (settings : Settings) (name : String) : Option String :=
  match settings.lookup name with
  | some (.text value) => some value
  | _ => none

def count? (settings : Settings) (name : String) : Option Int :=
  match settings.lookup name with
  | some (.count value) => some value
  | _ => none

/-- Whether a switch is on. -/
def isOn (settings : Settings) (name : String) : Bool :=
  settings.switch? name == some true

end Settings

/-- The value of a flag from its text; counts go on from what they were, in 64 bits. -/
def settingOf (settings : Settings) (flag : Flag) (value : String) : Except ValueError Setting :=
  match flag.kind with
  | .switch => (boolean value).map Setting.switch
  | .text => .ok (.text value)
  | .count =>
    if value = "+1" then
      .ok (.count ((((settings.count? flag.name).getD 0) + 1).bmod 18446744073709551616))
    else (integer value).map Setting.count

/-- Gives flags their values, one after the other. -/
def assign (settings : Settings) (given : List (Flag × String)) : Except FlagError Settings :=
  given.foldlM (fun settings (flag, value) =>
    match settingOf settings flag value with
    | .ok setting => .ok ((flag.name, setting) :: settings)
    | .error error => .error (.invalidValue value flag error)) settings

/-- What one word says: flags with their values and, if the value of the last one is to come, that flag
with the error that it would be to leave it out. -/
structure Reading where
  given : List (Flag × String) := []
  pending : Option (Flag × FlagError) := none

/-- Reads letters behind one dash; `given` holds what was read before. What starts with `test.` is
meant for a test runner and is passed over. -/
def readLetters (flags : List Flag) (given : List (Flag × String)) :
    List Char → Except FlagError Reading
  | [] => .ok { given := given }
  | 't' :: 'e' :: 's' :: 't' :: '.' :: _ => .ok { given := given }
  | letter :: rest =>
    match flags.find? fun flag => flag.letter == some letter with
    | none => .error (.unknownLetter letter (String.ofList (letter :: rest)))
    | some flag =>
      match rest, flag.implied? with
      | '=' :: first :: more, _ =>
        .ok { given := given ++ [(flag, String.ofList (first :: more))] }
      | _, some value => readLetters flags (given ++ [(flag, value)]) rest
      | [], none =>
        .ok { given := given, pending := some (flag, .letterValueMissing letter letter.toString) }
      | _, none => .ok { given := given ++ [(flag, String.ofList rest)] }

/-- Reads a name behind two dashes. -/
def readName (flags : List Flag) (word : String) (body : List Char) : Except FlagError Reading :=
  match body.head? with
  | none | some '-' | some '=' => .error (.badForm word)
  | _ =>
    let name := String.ofList (body.takeWhile fun sign => sign != '=')
    match flags.find? fun flag => flag.name == name with
    | none => .error (.unknown name)
    | some flag =>
      match body.dropWhile fun sign => sign != '=' with
      | _ :: value => .ok { given := [(flag, String.ofList value)] }
      | [] =>
        match flag.implied? with
        | some value => .ok { given := [(flag, value)] }
        | none => .ok { pending := some (flag, .valueMissing name) }

/-- What a word is: an argument, the end of the flags, or flags. -/
inductive WordKind where
  | argument
  | endOfFlags
  | letters (body : List Char)
  | name (body : List Char)
  deriving DecidableEq, Repr

def wordKind (word : String) : WordKind :=
  match word.toList with
  | ['-', '-'] => .endOfFlags
  | '-' :: '-' :: body => .name body
  | '-' :: sign :: body => .letters (sign :: body)
  | _ => .argument

/-- Reads a word that holds flags. -/
def readWord (flags : List Flag) (word : String) : WordKind → Except FlagError Reading
  | .letters body => readLetters flags [] body
  | .name body => readName flags word body
  | _ => .ok {}

/-- Reads the words of a command; `settings` and `arguments` hold what was read before, the arguments
the latest first. -/
def readWords (flags : List Flag) (settings : Settings) (arguments : List String) :
    List String → Except FlagError (Settings × List String)
  | [] => .ok (settings, arguments.reverse)
  | word :: rest =>
    match wordKind word with
    | .argument => readWords flags settings (word :: arguments) rest
    | .endOfFlags => .ok (settings, arguments.reverse ++ rest)
    | kind =>
      match readWord flags word kind with
      | .error error => .error error
      | .ok reading =>
        match assign settings reading.given with
        | .error error => .error error
        | .ok assigned =>
          match reading.pending with
          | none => readWords flags assigned arguments rest
          | some (flag, error) =>
            match rest with
            | [] => .error error
            | value :: behind =>
              match assign assigned [(flag, value)] with
              | .error error => .error error
              | .ok done => readWords flags done arguments behind

end PlZero.Command
