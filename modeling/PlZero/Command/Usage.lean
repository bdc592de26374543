import PlZero.Command.Verb

/-! The meaning of a command line: first the command is found, then its flags are read, then the number
of its arguments is checked. -/

namespace PlZero.Command

open PlZero.Text

/-- Why a command line has no meaning. -/
inductive UsageError where
  | unknownCommand (word : String)
  | flag (error : FlagError)
  | surplusArgument (word : String) (verb : Verb)
  | notExactly (count given : Nat)
  | tooFew (count given : Nat)
  | tooMany (count given : Nat)
  deriving DecidableEq, Repr

namespace UsageError

/-- The commands that an unknown one may have been meant for, each on a line. -/
def hint (word : String) : String :=
  match suggestions word with
  | [] => ""
  | names => "\n\nDid you mean this?\n" ++ String.join (names.map fun name => "\t" ++ name ++ "\n")

def message : UsageError → String
  | unknownCommand word =>
    "unknown command " ++ quote word ++ " for " ++ quote Verb.root.path ++ hint word
  | flag error => error.message
  | surplusArgument word verb => "unknown command " ++ quote word ++ " for " ++ quote verb.path
  | notExactly count given =>
    "accepts " ++ showNat count ++ " arg(s), received " ++ showNat given
  | tooFew count given =>
    "requires at least " ++ showNat count ++ " arg(s), only received " ++ showNat given
  | tooMany count given =>
    "accepts at most " ++ showNat count ++ " arg(s), received " ++ showNat given

end UsageError

/-- A command with its flags and arguments. -/
structure Call where
  verb : Verb
  settings : Settings
  arguments : List String
  deriving DecidableEq, Repr

/-- What a command line asks for. -/
inductive Intent where
  | help (verb : Verb)
  | version
  | call (call : Call)
  deriving DecidableEq, Repr

/-- Checks the number of arguments of a command. -/
def checkArity (verb : Verb) (arguments : List String) : Except UsageError Unit :=
  let given := arguments.length
  match verb.arity with
  | .any => .ok ()
  | .none =>
    match arguments with
    | [] => .ok ()
    | word :: _ => .error (.surplusArgument word verb)
  | .exactly count => if given = count then .ok () else .error (.notExactly count given)
  | .atLeast count => if count ≤ given then .ok () else .error (.tooFew count given)
  | .atMost count => if given ≤ count then .ok () else .error (.tooMany count given)

/-- The command that words select, with the words left for it. -/
def select (words : List String) : Except UsageError (Verb × List String) :=
  let (verb, rest) := Verb.descend 2 .root words
  match verb, verb.plainWords rest with
  | .root, word :: _ => .error (.unknownCommand word)
  | _, _ => .ok (verb, rest)

/-- The flags and arguments of a command. -/
def readFor (verb : Verb) (words : List String) : Except FlagError (Settings × List String) :=
  if verb.takesAllWords then .ok ([], words) else readWords verb.flags [] [] words

/-- The meaning of a command line. -/
def interpret (words : List String) : Except UsageError Intent := do
  let (verb, rest) ← select words
  match readFor verb rest with
  | .error error => .error (.flag error)
  | .ok (settings, arguments) =>
    if settings.isOn "help" then .ok (.help verb)
    else if settings.isOn "version" then .ok .version
    else if !verb.isRunnable then .ok (.help verb)
    else do
      checkArity verb arguments
      .ok (.call ⟨verb, settings, arguments⟩)

end PlZero.Command
