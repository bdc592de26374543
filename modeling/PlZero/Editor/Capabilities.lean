import PlZero.Editor.Shape

/-! The shape of what an editor says about itself when it introduces itself. None of it changes an
answer, but an introduction that says something of the wrong kind is refused. -/

namespace PlZero.Editor.Capabilities

open Shape

/-- That something can be registered later on. -/
def dynamic : String := "dynamicRegistration"

/-- A record of truth values, the first of which tells about registration. -/
def registrable (names : List String) : Shape :=
  record (flags (dynamic :: names))

/-- A set of numbers or of texts. -/
def valueSet (item : Shape) : Shape :=
  only "valueSet" (list item)

/-- The properties that can be asked for later. -/
def resolveSupport : Shape :=
  only "properties" (list text)

def workspaceEdit : Shape :=
  record
    [("documentChanges", boolean), ("resourceOperations", list text), ("failureHandling", text),
      ("normalizesLineEndings", boolean),
      ("changeAnnotationSupport", record (flags ["groupsOnLabel"]))]

def workspace : Shape :=
  record
    (flags ["applyEdit", "workspaceFolders", "configuration"]
      ++ [("workspaceEdit", workspaceEdit), ("didChangeConfiguration", registrable []),
        ("didChangeWatchedFiles", registrable []),
        ("symbol", record
          (flags [dynamic]
            ++ [("symbolKind", valueSet integer), ("tagSupport", valueSet integer)])),
        ("executeCommand", registrable []), ("semanticTokens", record (flags ["refreshSupport"])),
        ("codeLens", record (flags ["refreshSupport"])),
        ("fileOperations", registrable
          ["didCreate", "willCreate", "didRename", "willRename", "didDelete", "willDelete"])])

def completionItem : Shape :=
  record
    (flags
        ["snippetSupport", "commitCharactersSupport", "deprecatedSupport", "preselectSupport",
          "insertReplaceSupport"]
      ++ [("documentationFormat", list text), ("tagSupport", valueSet integer),
        ("resolveSupport", resolveSupport), ("insertTextModeSupport", valueSet integer)])

def completion : Shape :=
  record
    (flags [dynamic, "contextSupport"]
      ++ [("completionItem", completionItem), ("completionItemKind", valueSet integer)])

def signatureHelp : Shape :=
  record
    (flags [dynamic, "contextSupport"]
      ++ [("signatureInformation", record
        [("documentationFormat", list text),
          ("parameterInformation", record (flags ["labelOffsetSupport"])),
          ("activeParameterSupport", boolean)])])

def documentSymbol : Shape :=
  record
    (flags [dynamic, "hierarchicalDocumentSymbolSupport", "labelSupport"]
      ++ [("symbolKind", valueSet integer), ("tagSupport", valueSet integer)])

def codeAction : Shape :=
  record
    (flags
        [dynamic, "isPreferredSupport", "disabledSupport", "dataSupport", "honorsChangeAnnotations"]
      ++ [("codeActionLiteralSupport", only "codeActionKind" (valueSet text)),
        ("resolveSupport", resolveSupport)])

def semanticTokens : Shape :=
  record
    (flags [dynamic, "overlappingTokenSupport", "multilineTokenSupport"]
      ++ [("requests", record
          [("range", either boolean (record [])),
            ("full", either boolean (record (flags ["delta"])))]),
        ("tokenTypes", list text), ("tokenModifiers", list text), ("formats", list text)])

def publishDiagnostics : Shape :=
  record
    (flags ["relatedInformation", "versionSupport", "codeDescriptionSupport", "dataSupport"]
      ++ [("tagSupport", valueSet integer)])

def textDocument : Shape :=
  record
    [("synchronization", registrable ["willSave", "willSaveWaitUntil", "didSave"]),
      ("completion", completion),
      ("hover", record [(dynamic, boolean), ("contentFormat", list text)]),
      ("signatureHelp", signatureHelp), ("declaration", registrable ["linkSupport"]),
      ("definition", registrable ["linkSupport"]), ("typeDefinition", registrable ["linkSupport"]),
      ("implementation", registrable ["linkSupport"]), ("references", registrable []),
      ("documentHighlight", registrable []), ("documentSymbol", documentSymbol),
      ("codeAction", codeAction), ("codeLens", registrable []),
      ("documentLink", registrable ["tooltipSupport"]), ("colorProvider", registrable []),
      ("formatting", registrable []), ("rangeFormatting", registrable []),
      ("onTypeFormatting", registrable []),
      ("rename", record
        (flags [dynamic, "prepareSupport", "honorsChangeAnnotations"]
          ++ [("prepareSupportDefaultBehavior", integer)])),
      ("publishDiagnostics", publishDiagnostics),
      ("foldingRange", record
        [(dynamic, boolean), ("rangeLimit", unsigned), ("lineFoldingOnly", boolean)]),
      ("selectionRange", registrable []), ("linkedEditingRange", registrable []),
      ("callHierarchy", registrable []), ("semanticTokens", semanticTokens),
      ("moniker", registrable [])]

def window : Shape :=
  record
    [("workDoneProgress", boolean),
      ("showMessage", only "messageActionItem" (record (flags ["additionalPropertiesSupport"]))),
      ("showDocument", record (flags ["support"]))]

def general : Shape :=
  record
    [("regularExpressions", record [("engine", text), ("version", text)]),
      ("markdown", record [("parser", text), ("version", text)])]

/-- What an editor can do. -/
def all : Shape :=
  record
    [("workspace", workspace), ("textDocument", textDocument), ("window", window),
      ("general", general)]

end PlZero.Editor.Capabilities
