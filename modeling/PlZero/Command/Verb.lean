import PlZero.Command.Flag
import PlZero.Text.LetterCase

/-! The commands of the program and how words select one. Words that are flags, or values of flags, are
passed over in the search; the first other word that names a command below the current one leads
there. -/

namespace PlZero.Command

open PlZero.Text

inductive Verb where
  | root
  | tokens
  | compile
  | run
  | exec
  | watch
  | cache
  | cacheList
  | cacheClear
  | lsp
  | init
  | version
  | help
  | completion
  | completionBash
  | completionZsh
  | completionFish
  | completionPowershell
  | complete
  deriving DecidableEq, Repr

/-- How many arguments a command takes. -/
inductive Arity where
  | any
  | none
  | exactly (count : Nat)
  | atLeast (count : Nat)
  | atMost (count : Nat)
  deriving DecidableEq, Repr

namespace Verb

/-- The name of a command below its parent. -/
def name : Verb → String
  | root => "plc0"
  | tokens => "tokens"
  | compile => "compile"
  | run => "run"
  | exec => "exec"
  | watch => "watch"
  | cache => "cache"
  | cacheList => "list"
  | cacheClear => "clear"
  | lsp => "lsp"
  | init => "init"
  | version => "version"
  | help => "help"
  | completion => "completion"
  | completionBash => "bash"
  | completionZsh => "zsh"
  | completionFish => "fish"
  | completionPowershell => "powershell"
  | complete => "__complete"

/-- Another name of a command. -/
def alias? : Verb → Option String
  | complete => some "__completeNoDesc"
  | _ => none

/-- Whether a word names a command. -/
def answersTo (verb : Verb) (word : String) : Bool :=
  verb.name == word || verb.alias? == some word

/-- The commands below a command. -/
def children : Verb → List Verb
  | root =>
    [tokens, compile, run, exec, watch, cache, lsp, init, version, help, completion, complete]
  | cache => [cacheList, cacheClear]
  | completion => [completionBash, completionZsh, completionFish, completionPowershell]
  | _ => []

/-- The names from the program down to a command. -/
def path (verb : Verb) : String :=
  if verb = root then root.name
  else
    match [cache, completion].find? fun group => group.children.contains verb with
    | some group => root.name ++ " " ++ group.name ++ " " ++ verb.name
    | none => root.name ++ " " ++ verb.name

/-- Whether a command is left out of suggestions: the help, and what only shells call. -/
def isHidden (verb : Verb) : Bool :=
  verb == help || verb == complete

/-- Whether all words behind a command are its arguments, also those that look like flags. -/
def takesAllWords (verb : Verb) : Bool :=
  verb == complete

def arity : Verb → Arity
  | tokens | run | exec => .exactly 1
  | compile | watch | complete => .atLeast 1
  | init => .atMost 1
  | cacheList | cacheClear | lsp => .none
  | completionBash | completionZsh | completionFish | completionPowershell => .none
  | _ => .any

/-- Whether a command does something itself. -/
def isRunnable : Verb → Bool
  | root | cache | completion => false
  | _ => true

/-- The flags of all commands. -/
def commonFlags : List Flag :=
  [{ name := "project", letter := some 'C', kind := .text },
    { name := "verbose", letter := some 'v', kind := .count },
    { name := "log-file", kind := .text },
    { name := "no-cache", kind := .switch }]

/-- The flags of a command that others do not have. -/
def ownFlags : Verb → List Flag
  | compile =>
    [{ name := "output", letter := some 'o', kind := .text },
      { name := "format", kind := .text },
      { name := "listing", letter := some 'l', kind := .switch }]
  | watch =>
    [{ name := "output", letter := some 'o', kind := .text },
      { name := "format", kind := .text }]
  | run | exec => [{ name := "trace", kind := .switch }]
  | completionBash | completionZsh | completionFish | completionPowershell =>
    [{ name := "no-descriptions", kind := .switch }]
  | _ => []

/-- The flags that are known while a command is looked for. -/
def searchFlags (verb : Verb) : List Flag :=
  verb.ownFlags ++ commonFlags

/-- All flags of a command; the version can be asked of the program only. -/
def flags (verb : Verb) : List Flag :=
  verb.searchFlags
    ++ { name := "help", letter := some 'h', kind := .switch }
    :: (if verb = root then [{ name := "version", kind := .switch }] else [])

/-- Whether a word is a flag whose value is the next word, as far as can be told from it alone. -/
def takesNext (verb : Verb) (word : String) : Bool :=
  if word.toList.contains '=' then false
  else
    match word.toList with
    | '-' :: '-' :: name =>
      !(verb.searchFlags.any fun flag =>
        flag.name.toList == name && flag.implied?.isSome)
    | ['-', letter] =>
      letter.toNat < 0x80
        && !(verb.searchFlags.any fun flag => flag.letter == some letter && flag.implied?.isSome)
    | _ => false

/-- Whether a word can only be a flag. -/
def isFlag (word : String) : Bool :=
  word.toList.head? == some '-'

/-- The words that are neither flags nor their values. The search ends where the value of a flag would
be the last word. -/
def plainWords (verb : Verb) : List String → List String
  | [] => []
  | word :: rest =>
    if word = "--" then []
    else if verb.takesNext word then
      match rest with
      | _ :: next :: more => plainWords verb (next :: more)
      | _ => []
    else if word = "" || isFlag word then plainWords verb rest
    else word :: plainWords verb rest

/-- The words without the first plain one that is `name`. -/
def dropName (verb : Verb) (name : String) : List String → List String
  | [] => []
  | word :: rest =>
    if word = "--" then word :: rest
    else if verb.takesNext word then
      match rest with
      | value :: more => word :: value :: dropName verb name more
      | [] => [word]
    else if word = name then rest
    else word :: dropName verb name rest

/-- Goes down from a command by the names that words give, at most `depth` times. -/
def descend : Nat → Verb → List String → Verb × List String
  | 0, verb, words => (verb, words)
  | depth + 1, verb, words =>
    match verb.plainWords words with
    | [] => (verb, words)
    | name :: _ =>
      match verb.children.find? fun child => child.answersTo name with
      | some child => descend depth child (verb.dropName name words)
      | none => (verb, words)

end Verb

/-- The next row of the table of edit distances between the texts up to here. -/
def distanceRow (sign : UInt8) (above : List Nat) (other : List UInt8) (left : Nat) : List Nat :=
  match above, other with
  | diagonal :: upper :: rest, letter :: letters =>
    let best :=
      if sign = letter then diagonal else 1 + min (min upper left) diagonal
    left :: distanceRow sign (upper :: rest) letters best
  | _, _ => [left]

/-- How many letters must be put in, left out or changed to get from one text to another. -/
def editDistance (source target : List UInt8) : Nat :=
  let start := List.range (target.length + 1)
  let (last, _) := source.foldl (fun (row, index) sign =>
    (distanceRow sign row target (index + 1), index + 1)) (start, 0)
  last.getLast?.getD 0

/-- The commands that a word may have been meant for. -/
def suggestions (word : String) : List String :=
  let typed := encode (small word)
  (Verb.root.children.filter fun verb => !verb.isHidden).map Verb.name |>.filter fun name =>
    editDistance typed (encode name) ≤ 2 || typed.isPrefixOf (encode name)

end PlZero.Command
