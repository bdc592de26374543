import PlZero.Editor.Capabilities
import PlZero.Editor.Cursor

/-! Messages from an editor: a method and its parameters, which must have the shape that the method
asks for, decoded into a request. -/

namespace PlZero.Editor

/-- What an editor asks for or announces. -/
inductive Request where
  | introduce
  | initialized
  | shutdown
  | setTrace
  | didOpen (uri text : String)
  | didChange (uri : String) (text : Option String)
  | didClose (uri : String)
  | completion (uri : String) (cursor : Cursor)
  | hover (uri : String) (cursor : Cursor)
  | definition (uri : String) (cursor : Cursor)
  | references (uri : String) (cursor : Cursor) (withDeclaration : Bool)
  deriving DecidableEq, Repr

/-- Why a message gets no answer. -/
inductive Refusal where
  | notInitialized
  | methodNotFound
  | invalidParams
  deriving DecidableEq, Repr

namespace Message

open Shape

/-- The token of a long task. -/
def progressToken : Shape :=
  either integer text

/-- A place in a document. -/
def position : Shape :=
  record [("line", unsigned), ("character", unsigned)]

/-- What a query about a place in a document says. -/
def queryFields : List (String × Shape) :=
  [("workDoneToken", progressToken), ("textDocument", only "uri" text), ("position", position)]

/-- One change of a document. -/
def change : Shape :=
  record
    [("range", record [("start", position), ("end", position)]), ("rangeLength", unsigned),
      ("text", text)]

/-- How an editor introduces itself. -/
def introduction : Shape :=
  record
    [("workDoneToken", progressToken), ("processId", integer),
      ("clientInfo", record [("name", text), ("version", text)]), ("locale", text),
      ("rootPath", text), ("rootUri", text), ("capabilities", Capabilities.all), ("trace", text),
      ("workspaceFolders", list (record [("uri", text), ("name", text)]))]

/-- The shape of the parameters of a method; only methods that are understood have one. -/
def shape? : String → Option Shape
  | "initialize" => some introduction
  | "initialized" => some (record [])
  | "shutdown" => some any
  | "$/setTrace" => some (only "value" text)
  | "textDocument/didOpen" =>
    some (only "textDocument" (record
      [("uri", text), ("languageId", text), ("version", integer), ("text", text)]))
  | "textDocument/didChange" =>
    some (record
      [("textDocument", record [("uri", text), ("version", integer)]),
        ("contentChanges", list change)])
  | "textDocument/didClose" => some (only "textDocument" (only "uri" text))
  | "textDocument/completion" =>
    some (record (queryFields
      ++ [("partialResultToken", progressToken),
        ("context", record [("triggerKind", integer), ("triggerCharacter", text)])]))
  | "textDocument/hover" => some (record queryFields)
  | "textDocument/definition" =>
    some (record (queryFields ++ [("partialResultToken", progressToken)]))
  | "textDocument/references" =>
    some (record (queryFields
      ++ [("partialResultToken", progressToken), ("context", only "includeDeclaration" boolean)]))
  | _ => none

/-- The text in a field, or none if it is not given. -/
def textIn (value : Json) (name : String) : String :=
  (value.field name).string?.getD ""

/-- The document that parameters name. -/
def documentUri (params : Json) : String :=
  textIn (params.field "textDocument") "uri"

/-- The place that a query names. -/
def cursor (params : Json) : Cursor :=
  let position := params.field "position"
  ⟨(position.field "line").unsigned?.getD 0, (position.field "character").unsigned?.getD 0⟩

/-- The new text of a document after a change, unless the change is to a range only. -/
def newText? (change : Json) : Option String :=
  if (change.latest "range").isNull then some (textIn change "text") else none

/-- The new text that changes lead to: that of the last one. -/
def changedText? (params : Json) : Option String :=
  (params.latest "contentChanges").items.getLast?.bind newText?

/-- The request of a method with parameters of its shape. -/
def request (method : String) (params : Json) : Request :=
  match method with
  | "initialize" => .introduce
  | "shutdown" => .shutdown
  | "$/setTrace" => .setTrace
  | "textDocument/didOpen" =>
    .didOpen (documentUri params) (textIn (params.field "textDocument") "text")
  | "textDocument/didChange" => .didChange (documentUri params) (changedText? params)
  | "textDocument/didClose" => .didClose (documentUri params)
  | "textDocument/completion" => .completion (documentUri params) (cursor params)
  | "textDocument/hover" => .hover (documentUri params) (cursor params)
  | "textDocument/definition" => .definition (documentUri params) (cursor params)
  | "textDocument/references" =>
    .references (documentUri params) (cursor params)
      (((params.field "context").field "includeDeclaration").bool?.getD false)
  | _ => .initialized

/-- The request that a message makes. Only a shutdown may come without parameters. -/
def decode (method : String) (params : Option Json) : Except Refusal Request :=
  match shape? method with
  | none => .error .methodNotFound
  | some shape =>
    match params with
    | some value =>
      if shape.admits value then .ok (request method value) else .error .invalidParams
    | none => if method = "shutdown" then .ok .shutdown else .error .invalidParams

end Message

end PlZero.Editor
