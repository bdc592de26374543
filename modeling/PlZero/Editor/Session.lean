import PlZero.Editor.Document
import PlZero.Editor.Message

/-! A session with an editor: the open documents, and the answer to each message. A document is read
anew from each text that the editor sends, so an answer depends on the latest text only. -/

namespace PlZero.Editor

open PlZero.Text PlZero.Source

/-- The name of the service. -/
def serviceName : String := "plc0-lsp"

/-- What is answered to a request. -/
inductive Answer where
  | nothing
  | introduction (version : String)
  | hover (text : String)
  | completions (items : List Completion)
  | locations (uri : String) (spans : List Span)

/-- The diagnostics of a document, sent without being asked for. -/
structure Notice where
  uri : String
  diagnostics : List Diagnostic

structure Reply where
  answer : Answer := .nothing
  notice : Option Notice := none

structure Session where
  version : String
  isInitialized : Bool := false
  documents : List (String × Document) := []

namespace Session

def document? (session : Session) (uri : String) : Option Document :=
  session.documents.lookup uri

/-- The session without a document. -/
def close (session : Session) (uri : String) : Session :=
  { session with documents := session.documents.filter fun entry => entry.1 != uri }

/-- The session with a document in its latest text. -/
def update (session : Session) (uri : String) (document : Document) : Session :=
  { session with documents := (uri, document) :: (session.close uri).documents }

/-- Takes a new text of a document. -/
def take (session : Session) (uri text : String) : Session × Reply :=
  let document := Document.read (encode text)
  (session.update uri document, { notice := some ⟨uri, document.diagnostics⟩ })

/-- The answer about an open document; there is none about another. -/
def ask (session : Session) (uri : String) (question : Document → Answer) : Session × Reply :=
  match session.document? uri with
  | some document => (session, { answer := question document })
  | none => (session, {})

/-- Answers a request. -/
def serve (session : Session) : Request → Session × Reply
  | .introduce =>
    ({ session with isInitialized := true }, { answer := .introduction session.version })
  | .initialized => (session, {})
  | .shutdown => ({ session with isInitialized := false }, {})
  | .setTrace => (session, {})
  | .didOpen uri text => session.take uri text
  | .didChange uri (some text) => session.take uri text
  | .didChange _ none => (session, {})
  | .didClose uri => (session.close uri, { notice := some ⟨uri, []⟩ })
  | .completion uri cursor =>
    session.ask uri fun document => .completions (document.completions (document.stemAt cursor))
  | .hover uri cursor =>
    session.ask uri fun document =>
      ((document.hover? (document.wordAt cursor)).map Answer.hover).getD .nothing
  | .definition uri cursor =>
    session.ask uri fun document =>
      .locations uri (document.definition? (document.wordAt cursor)).toList
  | .references uri cursor withDeclaration =>
    session.ask uri fun document =>
      .locations uri (document.references (document.wordAt cursor) withDeclaration)

/-- Answers a message; before the session is initialized only that is answered. -/
def handle (session : Session) (method : String) (params : Option Json) :
    Session × Except Refusal Reply :=
  if !session.isInitialized && method != "initialize" then (session, .error .notInitialized)
  else
    match Message.decode method params with
    | .error refusal => (session, .error refusal)
    | .ok request =>
      let (next, reply) := session.serve request
      (next, .ok reply)

end Session

namespace Refusal

/-- The text of a refusal that is reported with one. -/
def message? : Refusal → Option String
  | notInitialized => some "server not initialized"
  | methodNotFound | invalidParams => none

end Refusal

def Cursor.toJson (cursor : Cursor) : Json :=
  .object [("line", .ofNat cursor.line.toNat), ("character", .ofNat cursor.character.toNat)]

def Span.toJson (span : Span) : Json :=
  .object [("start", span.start.toJson), ("end", span.stop.toJson)]

/-- The number of an item's kind: keyword, constant or variable. -/
def Completion.kind (completion : Completion) : Nat :=
  match completion.cls with
  | none => 14
  | some .constant => 21
  | some _ => 6

def Completion.toJson (completion : Completion) : Json :=
  .object
    ([("label", .string completion.label), ("kind", .ofNat completion.kind)]
      ++ (completion.cls.map fun cls => ("detail", Json.string cls.describe)).toList
      ++ [("insertText", .string completion.label)])

def Diagnostic.toJson (diagnostic : Diagnostic) : Json :=
  .object
    [("range", diagnostic.span.toJson), ("severity", .ofNat 1), ("source", .string serviceName),
      ("message", .string diagnostic.message)]

/-- What the service can do, and who it is. -/
def introductionJson (version : String) : Json :=
  .object
    [("capabilities", .object
        [("textDocumentSync", .object [("openClose", .bool true), ("change", .ofNat 1)]),
          ("completionProvider", .object []), ("hoverProvider", .bool true),
          ("definitionProvider", .bool true), ("referencesProvider", .bool true)]),
      ("serverInfo", .object [("name", .string serviceName), ("version", .string version)])]

def Answer.toJson : Answer → Json
  | nothing => .null
  | introduction version => introductionJson version
  | hover text =>
    .object [("contents", .object [("kind", .string "markdown"), ("value", .string text)])]
  | completions items => .listOrNull (items.map Completion.toJson)
  | locations uri spans =>
    .listOrNull (spans.map fun span => .object [("uri", .string uri), ("range", span.toJson)])

def Notice.toJson (notice : Notice) : Json :=
  .object
    [("method", .string "textDocument/publishDiagnostics"),
      ("params", .object
        [("uri", .string notice.uri),
          ("diagnostics", .array (notice.diagnostics.map Diagnostic.toJson))])]

end PlZero.Editor
