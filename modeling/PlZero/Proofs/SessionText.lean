import PlZero.Editor.Session
import PlZero.Proofs.Attempt
import PlZero.Proofs.Entries

/-! What an answer to an editor depends on. Whatever messages about whatever documents a session has
received, of a document it holds the text that was given last unless the document was closed since. Main
statement: a question about a document is answered as a session answers it that was only told of this
text, and with null when there is none. -/

namespace PlZero.Editor

open PlZero.Text PlZero.Entries

/-- The document that a request gives a text to or closes, and the text. -/
def Request.change? : Request → Option (String × Option String)
  | .didOpen uri text => some (uri, some text)
  | .didChange uri (some text) => some (uri, some text)
  | .didClose uri => some (uri, none)
  | _ => none

/-- The document that a request asks about. -/
def Request.subject? : Request → Option String
  | .completion uri _ => some uri
  | .hover uri _ => some uri
  | .definition uri _ => some uri
  | .references uri _ _ => some uri
  | _ => none

/-- A message as it arrives. -/
structure Envelope where
  method : String
  params : Option Json

namespace Envelope

/-- The request that a message makes, unless it is refused. -/
def request? (envelope : Envelope) : Option Request :=
  (Message.decode envelope.method envelope.params).toOption

def change? (envelope : Envelope) : Option (String × Option String) :=
  envelope.request?.bind Request.change?

def subject? (envelope : Envelope) : Option String :=
  envelope.request?.bind Request.subject?

/-- Whether a message gives a text to a document or closes it. -/
def changes (uri : String) (envelope : Envelope) : Bool :=
  envelope.change?.map Prod.fst == some uri

/-- The message that opens a document with a text. -/
def opening (uri text : String) : Envelope where
  method := "textDocument/didOpen"
  params := some (.object [("textDocument", .object [("uri", .string uri),
    ("languageId", .string "plc0"), ("version", .ofNat 1), ("text", .string text)])])

theorem request?_opening (uri text : String) :
    (opening uri text).request? = some (.didOpen uri text) := by
  have hdecode : Message.decode (opening uri text).method (opening uri text).params =
      .ok (.didOpen uri text) := by cbv
  rw [request?, hdecode]
  rfl

/-- A message that is not a shutdown does not ask for one. -/
theorem ne_shutdown {envelope : Envelope} (h : envelope.method ≠ "shutdown") :
    envelope.request? ≠ some .shutdown := by
  have hrequest (params : Json) : Message.request envelope.method params ≠ .shutdown := by
    intro heq
    unfold Message.request at heq
    split at heq <;> try cases heq
    exact h ‹_›
  unfold request? Message.decode
  split
  · nofun
  · split
    · split
      · intro heq
        exact hrequest _ (Option.some.inj heq)
      · nofun
    · rw [if_neg h]
      nofun

end Envelope

/-- A change of the whole text of a document, or of a part of it. -/
inductive ContentChange where
  | whole (text : String)
  | part (text : String)
  deriving DecidableEq, Repr

namespace ContentChange

def toJson : ContentChange → Json
  | whole text => .object [("text", .string text)]
  | part text => .object [("range", .object []), ("text", .string text)]

/-- The whole text, if it is given. -/
def text? : ContentChange → Option String
  | whole text => some text
  | part _ => none

theorem admits_toJson (change : ContentChange) : Message.change.admits change.toJson = true := by
  cases change <;> cbv

theorem newText?_toJson (change : ContentChange) :
    Message.newText? change.toJson = change.text? := by
  cases change with
  | whole text => cbv
  | part text =>
      have hrange : (part text).toJson.latest "range" = .object [] := by cbv
      rw [Message.newText?, hrange]
      rfl

end ContentChange

/-- What is told of changes of a document. -/
def changesJson (uri : String) (changes : List ContentChange) : Json :=
  .object [("textDocument", .object [("uri", .string uri), ("version", .ofNat 2)]),
    ("contentChanges", .array (changes.map ContentChange.toJson))]

theorem given_contentChanges (document edits : Json) :
    Json.given (.object [("textDocument", document), ("contentChanges", edits)]) "contentChanges" =
      [edits] := by cbv

theorem admits_changesJson (uri : String) (changes : List ContentChange) :
    (Shape.record [("textDocument", .record [("uri", .text), ("version", .integer)]),
      ("contentChanges", .list Message.change)]).admits (changesJson uri changes) = true := by
  have hgiven (document edits : Json) :
      Json.given (.object [("textDocument", document), ("contentChanges", edits)]) "textDocument" =
        [document] := by cbv
  have hdocument : (Shape.record [("uri", .text), ("version", .integer)]).admits
      (.object [("uri", .string uri), ("version", .ofNat 2)]) = true := by cbv
  have hchanges : (Shape.list Message.change).admits
      (.array (changes.map ContentChange.toJson)) = true := by
    rw [Shape.admits, List.all_map, List.all_eq_true]
    intro change _
    exact change.admits_toJson
  rw [changesJson, Shape.admits, Shape.admitsFields, Shape.admitsFields, Shape.admitsFields, hgiven,
    given_contentChanges, List.all_cons, List.all_nil, List.all_cons, List.all_nil, hdocument, hchanges]
  rfl

/-- Of several changes the last one counts. -/
theorem changedText?_changesJson (uri : String) (changes : List ContentChange) :
    Message.changedText? (changesJson uri changes) = changes.getLast?.bind ContentChange.text? := by
  have hlatest : (changesJson uri changes).latest "contentChanges" =
      .array (changes.map ContentChange.toJson) := by
    rw [Json.latest, changesJson, given_contentChanges]
    rfl
  rw [Message.changedText?, hlatest, Json.items, List.getLast?_map]
  cases changes.getLast? with
  | none => rfl
  | some change => exact change.newText?_toJson

namespace Envelope

/-- The message that changes a document. -/
def changing (uri : String) (changes : List ContentChange) : Envelope where
  method := "textDocument/didChange"
  params := some (changesJson uri changes)

theorem request?_changing (uri : String) (changes : List ContentChange) :
    (changing uri changes).request? =
      some (.didChange uri (changes.getLast?.bind ContentChange.text?)) := by
  have huri : Message.documentUri (changesJson uri changes) = uri := by cbv
  have hshape : Message.shape? "textDocument/didChange" =
      some (.record [("textDocument", .record [("uri", .text), ("version", .integer)]),
        ("contentChanges", .list Message.change)]) := rfl
  have hrequest : Message.request "textDocument/didChange" (changesJson uri changes) =
      .didChange (Message.documentUri (changesJson uri changes))
        (Message.changedText? (changesJson uri changes)) := rfl
  rw [request?, changing, Message.decode, hshape]
  dsimp only
  rw [if_pos (admits_changesJson uri changes), hrequest, huri, changedText?_changesJson]
  rfl

theorem change?_changing (uri : String) (changes : List ContentChange) :
    (changing uri changes).change? =
      (changes.getLast?.bind ContentChange.text?).map fun text => (uri, some text) := by
  rw [change?, request?_changing, Option.bind_some]
  cases changes.getLast?.bind ContentChange.text? with
  | none => rfl
  | some text => rfl

end Envelope

/-- The text is the one that the document was given last, and the document was not closed since. -/
def IsLatest (envelopes : List Envelope) (uri text : String) : Prop :=
  ∃ earlier envelope later, envelopes = earlier ++ envelope :: later ∧
    envelope.change? = some (uri, some text) ∧ ∀ other ∈ later, ∀ new, other.change? ≠ some (uri, new)

theorem not_isLatest_nil (uri text : String) : ¬IsLatest [] uri text := by
  rintro ⟨earlier, envelope, later, hsplit, -⟩
  cases earlier <;> cases hsplit

theorem isLatest_concat_iff {envelopes : List Envelope} {envelope : Envelope} {uri text : String} :
    IsLatest (envelopes ++ [envelope]) uri text ↔ envelope.change? = some (uri, some text) ∨
      (∀ new, envelope.change? ≠ some (uri, new)) ∧ IsLatest envelopes uri text := by
  constructor
  · rintro ⟨earlier, giving, later, hsplit, hgiving, hlater⟩
    rcases List.eq_nil_or_concat later with rfl | ⟨between, last, rfl⟩
    · obtain ⟨-, hlast⟩ := List.append_inj' hsplit rfl
      obtain rfl := List.singleton_inj.mp hlast
      exact .inl hgiving
    · rw [List.concat_eq_append, ← List.cons_append, ← List.append_assoc] at hsplit
      obtain ⟨rfl, hlast⟩ := List.append_inj' hsplit rfl
      obtain rfl := List.singleton_inj.mp hlast
      rw [List.concat_eq_append] at hlater
      refine .inr ⟨hlater envelope (List.mem_append_right _ List.mem_cons_self), ?_⟩
      exact ⟨earlier, giving, between, rfl, hgiving,
        fun other hother => hlater other (List.mem_append_left _ hother)⟩
  · rintro (hgiving | ⟨hkept, earlier, giving, later, rfl, hgiving, hlater⟩)
    · exact ⟨envelopes, envelope, [], rfl, hgiving, List.forall_mem_nil _⟩
    · refine ⟨earlier, giving, later ++ [envelope], by simp, hgiving, fun other hother => ?_⟩
      rcases List.mem_append.mp hother with hbefore | hlast
      · exact hlater other hbefore
      · rw [List.mem_singleton.mp hlast]
        exact hkept

namespace Session

/-- A session that was initialized and has no document. -/
def fresh (version : String) : Session where
  version := version
  isInitialized := true

theorem isInitialized_fresh (version : String) : (fresh version).isInitialized = true := rfl

/-- What a session answers to a message. -/
def reply (session : Session) (envelope : Envelope) : Except Refusal Reply :=
  (session.handle envelope.method envelope.params).2

/-- The session behind a message. -/
def after (session : Session) (envelope : Envelope) : Session :=
  (session.handle envelope.method envelope.params).1

/-- The session behind messages. -/
def receive (session : Session) (envelopes : List Envelope) : Session :=
  envelopes.foldl after session

/-- The document that is read from a text. -/
def documentOf (text : String) : Document :=
  Document.read (encode text)

variable {session : Session}

theorem handle_of_initialized (h : session.isInitialized = true) {envelope : Envelope}
    {request : Request} (hrequest : envelope.request? = some request) :
    session.after envelope = (session.serve request).1 ∧
      session.reply envelope = .ok (session.serve request).2 := by
  have hdecode : Message.decode envelope.method envelope.params = .ok request := by
    unfold Envelope.request? at hrequest
    cases hdecode : Message.decode envelope.method envelope.params with
    | error refusal =>
        rw [hdecode] at hrequest
        cases hrequest
    | ok found =>
        rw [hdecode] at hrequest
        rw [Option.some.inj hrequest]
  rw [after, reply, handle, h, hdecode]
  exact ⟨rfl, rfl⟩

theorem after_of_refused {envelope : Envelope} (h : envelope.request? = none) :
    session.after envelope = session := by
  rw [after, handle]
  split
  · rfl
  · cases hdecode : Message.decode envelope.method envelope.params with
    | error refusal => rfl
    | ok request =>
        rw [Envelope.request?, hdecode] at h
        cases h

theorem document?_update (session : Session) (uri other : String) (document : Document) :
    (session.update uri document).document? other =
      if other = uri then some document else session.document? other :=
  lookup_replace session.documents uri other document

theorem document?_close (session : Session) (uri other : String) :
    (session.close uri).document? other = if other = uri then none else session.document? other :=
  lookup_filter session.documents uri other

/-- A request touches at most the document that it changes. -/
theorem document?_serve (session : Session) (request : Request) (uri : String) :
    (session.serve request).1.document? uri =
      match request.change? with
      | some (changed, new) =>
        if uri = changed then new.map documentOf else session.document? uri
      | none => session.document? uri := by
  have hask (other : String) (question : Document → Answer) :
      (session.ask other question).1 = session := by
    rw [ask]
    split <;> rfl
  cases request with
  | didOpen changed text => exact document?_update session changed uri (documentOf text)
  | didChange changed new =>
      cases new with
      | none => rfl
      | some text => exact document?_update session changed uri (documentOf text)
  | didClose changed => exact document?_close session changed uri
  | completion other cursor => exact congrArg (document? · uri) (hask other _)
  | hover other cursor => exact congrArg (document? · uri) (hask other _)
  | definition other cursor => exact congrArg (document? · uri) (hask other _)
  | references other cursor withDeclaration => exact congrArg (document? · uri) (hask other _)
  | introduce => rfl
  | initialized => rfl
  | shutdown => rfl
  | setTrace => rfl

theorem isInitialized_serve (h : session.isInitialized = true) {request : Request}
    (hrequest : request ≠ .shutdown) : (session.serve request).1.isInitialized = true := by
  have hask (other : String) (question : Document → Answer) :
      (session.ask other question).1.isInitialized = true := by
    rw [ask]
    split <;> exact h
  cases request with
  | didChange changed new => cases new <;> exact h
  | completion other cursor => exact hask other _
  | hover other cursor => exact hask other _
  | definition other cursor => exact hask other _
  | references other cursor withDeclaration => exact hask other _
  | introduce => rfl
  | shutdown => exact absurd rfl hrequest
  | _ => exact h

theorem document?_after (h : session.isInitialized = true) (envelope : Envelope) (uri : String) :
    (session.after envelope).document? uri =
      match envelope.change? with
      | some (changed, new) =>
        if uri = changed then new.map documentOf else session.document? uri
      | none => session.document? uri := by
  cases hrequest : envelope.request? with
  | none => rw [after_of_refused hrequest, Envelope.change?, hrequest, Option.bind_none]
  | some request =>
      rw [(handle_of_initialized h hrequest).1, document?_serve, Envelope.change?, hrequest,
        Option.bind_some]

theorem isInitialized_after (h : session.isInitialized = true) {envelope : Envelope}
    (hmethod : envelope.method ≠ "shutdown") : (session.after envelope).isInitialized = true := by
  cases hrequest : envelope.request? with
  | none => rwa [after_of_refused hrequest]
  | some request =>
      rw [(handle_of_initialized h hrequest).1]
      refine isInitialized_serve h fun hshutdown => ?_
      rw [hshutdown] at hrequest
      exact Envelope.ne_shutdown hmethod hrequest

theorem receive_concat (session : Session) (envelopes : List Envelope) (envelope : Envelope) :
    session.receive (envelopes ++ [envelope]) = (session.receive envelopes).after envelope :=
  List.foldl_concat ..

theorem isInitialized_receive (h : session.isInitialized = true) {envelopes : List Envelope}
    (hmethods : ∀ envelope ∈ envelopes, envelope.method ≠ "shutdown") :
    (session.receive envelopes).isInitialized = true := by
  induction envelopes generalizing session with
  | nil => exact h
  | cons envelope rest ih =>
      obtain ⟨hfirst, hrest⟩ := List.forall_mem_cons.mp hmethods
      exact ih (isInitialized_after h hfirst) hrest

section Received

variable (version : String) {envelopes : List Envelope}
  (hmethods : ∀ envelope ∈ envelopes, envelope.method ≠ "shutdown")

include hmethods

/-- A session holds of a document what is read from its latest text. -/
theorem document?_receive (uri : String) (document : Document) :
    ((fresh version).receive envelopes).document? uri = some document ↔
      ∃ text, IsLatest envelopes uri text ∧ documentOf text = document := by
  -- The last message decides, or it leaves the document to those before it.
  induction envelopes using List.reverseRecOn with
  | nil =>
      constructor
      · nofun
      · rintro ⟨text, hlatest, -⟩
        exact absurd hlatest (not_isLatest_nil uri text)
  | append_singleton envelopes envelope ih =>
      obtain ⟨hbefore, -⟩ := List.forall_mem_append.mp hmethods
      have hinitialized := isInitialized_receive (isInitialized_fresh version) hbefore
      rw [receive_concat, document?_after hinitialized]
      simp only [isLatest_concat_iff]
      cases hchange : envelope.change? with
      | none => simpa using ih hbefore
      | some change =>
          obtain ⟨changed, new⟩ := change
          dsimp only
          by_cases huri : uri = changed
          · subst huri
            cases new with
            | none => simp
            | some text => simp
          · have hother : changed ≠ uri := Ne.symm huri
            rw [if_neg huri, ih hbefore]
            simp [hother]

theorem document?_of_latest {uri text : String} (h : IsLatest envelopes uri text) :
    ((fresh version).receive envelopes).document? uri = some (documentOf text) :=
  (document?_receive version hmethods uri _).mpr ⟨text, h, rfl⟩

theorem document?_of_absent {uri : String} (h : ∀ text, ¬IsLatest envelopes uri text) :
    ((fresh version).receive envelopes).document? uri = none := by
  rw [Option.eq_none_iff_forall_ne_some]
  intro document hdocument
  obtain ⟨text, hlatest, -⟩ := (document?_receive version hmethods uri document).mp hdocument
  exact h text hlatest

/-- Messages that do not change a document have no influence on it. -/
theorem document?_filter (uri : String) :
    ((fresh version).receive (envelopes.filter (Envelope.changes uri))).document? uri =
      ((fresh version).receive envelopes).document? uri := by
  induction envelopes using List.reverseRecOn with
  | nil => rfl
  | append_singleton envelopes envelope ih =>
      obtain ⟨hbefore, -⟩ := List.forall_mem_append.mp hmethods
      have hkept : ∀ other ∈ envelopes.filter (Envelope.changes uri), other.method ≠ "shutdown" :=
        fun other hother => hbefore other (List.mem_of_mem_filter hother)
      have hall := document?_after (isInitialized_receive (isInitialized_fresh version) hbefore)
        envelope uri
      have hfew := document?_after (isInitialized_receive (isInitialized_fresh version) hkept)
        envelope uri
      rw [receive_concat, hall, List.filter_append]
      by_cases hchanges : envelope.changes uri = true
      · rw [List.filter_cons_of_pos hchanges, List.filter_nil, receive_concat, hfew, ih hbefore]
      · rw [List.filter_cons_of_neg hchanges, List.filter_nil, List.append_nil, ih hbefore]
        cases hchange : envelope.change? with
        | none => rfl
        | some change =>
            have hother : uri ≠ change.1 := by
              rintro rfl
              exact hchanges (by rw [Envelope.changes, hchange]; exact BEq.rfl)
            exact (if_neg hother).symm

end Received

/-! ### Answers -/

/-- A question about a document is put to it if it is there. -/
theorem exists_question {request : Request} {uri : String} (h : request.subject? = some uri) :
    ∃ question, ∀ session : Session, session.serve request = session.ask uri question := by
  cases request with
  | completion other cursor =>
      obtain rfl := Option.some.inj h
      exact ⟨_, fun session => rfl⟩
  | hover other cursor =>
      obtain rfl := Option.some.inj h
      exact ⟨_, fun session => rfl⟩
  | definition other cursor =>
      obtain rfl := Option.some.inj h
      exact ⟨_, fun session => rfl⟩
  | references other cursor withDeclaration =>
      obtain rfl := Option.some.inj h
      exact ⟨_, fun session => rfl⟩
  | _ => cases h

theorem request?_of_subject? {query : Envelope} {uri : String} (h : query.subject? = some uri) :
    ∃ request, query.request? = some request ∧ request.subject? = some uri :=
  Option.bind_eq_some_iff.mp h

/-- Sessions that hold the same of a document answer alike. -/
theorem reply_congr {left right : Session} (hleft : left.isInitialized = true)
    (hright : right.isInitialized = true) {query : Envelope} {uri : String}
    (hsubject : query.subject? = some uri) (h : left.document? uri = right.document? uri) :
    left.reply query = right.reply query := by
  obtain ⟨request, hrequest, hsubject⟩ := request?_of_subject? hsubject
  obtain ⟨question, hserve⟩ := exists_question hsubject
  rw [(handle_of_initialized hleft hrequest).2, (handle_of_initialized hright hrequest).2, hserve,
    hserve, ask, ask, h]
  cases right.document? uri with
  | none => rfl
  | some document => rfl

theorem reply_of_absent (h : session.isInitialized = true) {query : Envelope} {uri : String}
    (hsubject : query.subject? = some uri) (habsent : session.document? uri = none) :
    session.reply query = .ok {} := by
  obtain ⟨request, hrequest, hsubject⟩ := request?_of_subject? hsubject
  obtain ⟨question, hserve⟩ := exists_question hsubject
  rw [(handle_of_initialized h hrequest).2, hserve, ask, habsent]

theorem reply_of_text (h : session.isInitialized = true) {envelope : Envelope} {uri text : String}
    (hchange : envelope.change? = some (uri, some text)) :
    session.reply envelope = .ok { notice := some ⟨uri, (documentOf text).diagnostics⟩ } := by
  obtain ⟨request, hrequest, hchange⟩ := Option.bind_eq_some_iff.mp hchange
  rw [(handle_of_initialized h hrequest).2]
  cases request with
  | didOpen other new =>
      obtain ⟨rfl, hnew⟩ := Prod.mk.inj (Option.some.inj hchange)
      obtain rfl := Option.some.inj hnew
      rfl
  | didChange other new =>
      cases new with
      | none => cases hchange
      | some new =>
          obtain ⟨rfl, hnew⟩ := Prod.mk.inj (Option.some.inj hchange)
          obtain rfl := Option.some.inj hnew
          rfl
  | didClose other => cases hchange
  | _ => cases hchange

theorem reply_of_close (h : session.isInitialized = true) {envelope : Envelope} {uri : String}
    (hchange : envelope.change? = some (uri, none)) :
    session.reply envelope = .ok { notice := some ⟨uri, []⟩ } := by
  obtain ⟨request, hrequest, hchange⟩ := Option.bind_eq_some_iff.mp hchange
  rw [(handle_of_initialized h hrequest).2]
  cases request with
  | didOpen other new => cases hchange
  | didChange other new => cases new <;> cases hchange
  | didClose other =>
      obtain ⟨rfl, -⟩ := Prod.mk.inj (Option.some.inj hchange)
      rfl
  | _ => cases hchange

theorem change?_opening (uri text : String) :
    (Envelope.opening uri text).change? = some (uri, some text) := by
  rw [Envelope.change?, Envelope.request?_opening]
  rfl

theorem isLatest_opening (uri text : String) : IsLatest [Envelope.opening uri text] uri text :=
  ⟨[], _, [], rfl, change?_opening uri text, List.forall_mem_nil _⟩

end Session

/-- A session holds each document as it is read from its latest text among the messages, and no other. It
answers about a document as one that only opened it with this text, and with null if there is none; a text
that a document is given is answered by its diagnostics, and closing a document by none. -/
structure Session.Mirrors (session : Session) (envelopes : List Envelope) : Prop where
  holds : ∀ uri document, session.document? uri = some document ↔
    ∃ text, IsLatest envelopes uri text ∧ Document.read (encode text) = document
  answers : ∀ version query uri text, query.subject? = some uri → IsLatest envelopes uri text →
    session.reply query = ((fresh version).receive [.opening uri text]).reply query
  withholds : ∀ query uri, query.subject? = some uri → (∀ text, ¬IsLatest envelopes uri text) →
    ∃ reply, session.reply query = .ok reply ∧ reply.answer.toJson = .null ∧ reply.notice = none
  publishes : ∀ version envelope uri text, envelope.change? = some (uri, some text) →
    session.reply envelope = (fresh version).reply (.opening uri text) ∧
      session.reply envelope =
        .ok { notice := some ⟨uri, (Document.read (encode text)).diagnostics⟩ }
  clears : ∀ envelope uri, envelope.change? = some (uri, none) →
    session.reply envelope = .ok { notice := some ⟨uri, []⟩ }
  ignores : ∀ envelope uri, envelope.request? = some (.didChange uri none) →
    session.reply envelope = .ok {} ∧ session.after envelope = session

namespace Session

theorem mirrors_receive (version : String) {envelopes : List Envelope}
    (hmethods : ∀ envelope ∈ envelopes, envelope.method ≠ "shutdown") :
    ((fresh version).receive envelopes).Mirrors envelopes := by
  have hinitialized := isInitialized_receive (isInitialized_fresh version) hmethods
  refine ⟨document?_receive version hmethods, ?_, ?_, ?_, ?_, ?_⟩
  · intro other query uri text hsubject hlatest
    have hopening : ∀ envelope ∈ [Envelope.opening uri text], envelope.method ≠ "shutdown" := by
      intro envelope henvelope
      rw [List.mem_singleton.mp henvelope]
      show "textDocument/didOpen" ≠ "shutdown"
      decide
    refine reply_congr hinitialized (isInitialized_receive (isInitialized_fresh other) hopening)
      hsubject ?_
    rw [document?_of_latest version hmethods hlatest,
      document?_of_latest other hopening (isLatest_opening uri text)]
  · intro query uri hsubject habsent
    exact ⟨_, reply_of_absent hinitialized hsubject (document?_of_absent version hmethods habsent),
      rfl, rfl⟩
  · intro other envelope uri text hchange
    have hopened := reply_of_text (isInitialized_fresh other) (change?_opening uri text)
    have hgiven := reply_of_text hinitialized hchange
    exact ⟨hgiven.trans hopened.symm, hgiven⟩
  · intro envelope uri hchange
    exact reply_of_close hinitialized hchange
  · intro envelope uri hrequest
    obtain ⟨hafter, hreply⟩ := handle_of_initialized hinitialized hrequest
    exact ⟨hreply, hafter⟩

end Session

open Session

/-- After any messages but a shutdown, a session answers as one that only knows the latest text of each
document; the answers about a document are those of a session that received no other messages than the
ones that change it; and of the changes that one message tells, only the last counts, if it is of the
whole text. -/
theorem session_history (version : String) (envelopes : List Envelope)
    (hmethods : ∀ envelope ∈ envelopes, envelope.method ≠ "shutdown") :
    ((fresh version).receive envelopes).Mirrors envelopes ∧
      (∀ query uri, query.subject? = some uri →
        ((fresh version).receive envelopes).reply query =
          ((fresh version).receive (envelopes.filter (Envelope.changes uri))).reply query) ∧
      ∀ uri changes, (Envelope.changing uri changes).change? =
        (changes.getLast?.bind ContentChange.text?).map fun text => (uri, some text) := by
  refine ⟨mirrors_receive version hmethods, fun query uri hsubject => ?_, Envelope.change?_changing⟩
  have hfew : ∀ envelope ∈ envelopes.filter (Envelope.changes uri), envelope.method ≠ "shutdown" :=
    fun envelope henvelope => hmethods envelope (List.mem_of_mem_filter henvelope)
  exact reply_congr (isInitialized_receive (isInitialized_fresh version) hmethods)
    (isInitialized_receive (isInitialized_fresh version) hfew) hsubject
    (document?_filter version hmethods uri).symm

/-- The message that closes a document. -/
def Envelope.closing (uri : String) : Envelope where
  method := "textDocument/didClose"
  params := some (.object [("textDocument", .object [("uri", .string uri)])])

/-- The question where the word at the start of a document is declared. -/
def Envelope.seeking (uri : String) : Envelope where
  method := "textDocument/definition"
  params := some (.object [("textDocument", .object [("uri", .string uri)]),
    ("position", .object [("line", .ofNat 0), ("character", .ofNat 0)])])

/-- Two documents are opened; one is changed, and changed once more in a part, and the other closed. -/
def editing : List Envelope :=
  [.opening "a" "begin end", .opening "b" "x", .changing "a" [.part "y", .whole "var x; x"],
    .changing "a" [.whole "z", .part "y"], .closing "b"]

theorem session_history_editing : (∀ envelope ∈ editing, envelope.method ≠ "shutdown") ∧
    IsLatest editing "a" "var x; x" ∧ (Envelope.seeking "a").subject? = some "a" ∧
    ((fresh "1").receive editing).reply (.seeking "a") =
      ((fresh "2").receive [.opening "a" "var x; x"]).reply (.seeking "a") := by
  have hmethods : ∀ envelope ∈ editing, envelope.method ≠ "shutdown" := by decide
  have hgiving : (Envelope.changing "a" [.part "y", .whole "var x; x"]).change? =
      some ("a", some "var x; x") := Envelope.change?_changing _ _
  have hignored : (Envelope.changing "a" [.whole "z", .part "y"]).change? = none :=
    Envelope.change?_changing _ _
  have hclosing : (Envelope.closing "b").change? = some ("b", none) := by cbv
  have hsubject : (Envelope.seeking "a").subject? = some "a" := by cbv
  have hlatest : IsLatest editing "a" "var x; x" := by
    refine ⟨[.opening "a" "begin end", .opening "b" "x"], _, _, rfl, hgiving, ?_⟩
    simp [hignored, hclosing]
  have hmirrors := (session_history "1" editing hmethods).1
  exact ⟨hmethods, hlatest, hsubject, hmirrors.answers "2" _ "a" _ hsubject hlatest⟩

end PlZero.Editor
