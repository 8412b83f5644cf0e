import Parlance.Session.Document
import Parlance.Session.Landmark
import Parlance.Session.Uri
import Parlance.Session.Word

/-!
Contract: an editor session over open documents.

Documents are known by their addresses. Opening or changing one analyses its text anew under the
settings that govern its file; nothing else changes what is known. Owns: the open documents and the
answers to an editor's requests. Does not own: the messages they travel in. Embeds `did_open`,
`did_change`, `did_close`, `hover`, `completion`, `document_symbol` and `formatting`.
-/

namespace Parlance

/-- The open documents by their addresses. -/
structure Session where
  documents : List (String × Session.Document)

namespace Session

def empty : Session := ⟨[]⟩

inductive Fault where
  /-- The settings that govern a document cannot be read. -/
  | settings (fault : Settings.Fault)
  /-- An address is none. -/
  | address
  /-- A number is none that an editor takes. -/
  | number
  /-- A program cannot be printed. -/
  | printer (fault : Draft.Fault)
deriving DecidableEq, Repr

def get? (session : Session) (uri : String) : Option Document :=
  session.documents.lookup uri

def put (session : Session) (uri : String) (document : Document) : Session :=
  ⟨Keyed.put uri document session.documents⟩

def settingsAt (files : Files) (folder : Path)
    (text : String) : Except Settings.Fault Settings := do
  Settings.governing files (← Settings.locate folder text)

/-- The settings that govern the document at an address. A document that is no file has standard
settings. -/
def settingsFor (files : Files) (folder : Path) (uri : String) : Except Fault Settings :=
  match Uri.target uri with
  | .other => .ok .standard
  | .malformed => .error .address
  | .file text =>
    match settingsAt files folder text with
    | .ok settings => .ok settings
    | .error fault => .error (.settings fault)

/-- Analyses a text as the document at an address. A fault leaves the session as it was. -/
def update (machine : Machine) (files : Files) (folder : Path) (session : Session)
    (uri : String) (text : String) : Except Fault (Document × Session) :=
  match settingsFor files folder uri with
  | .error fault => .error fault
  | .ok settings =>
    let document := Document.analyse machine settings text
    .ok (document, session.put uri document)

def openDocument (machine : Machine) (files : Files) (folder : Path) (session : Session)
    (uri : String) (text : String) : Except Fault (Document × Session) :=
  session.update machine files folder uri text

/-- Changes a document to the last of the given texts, and to the empty text without any. -/
def changeDocument (machine : Machine) (files : Files) (folder : Path) (session : Session)
    (uri : String) (texts : List String) : Except Fault (Document × Session) :=
  session.update machine files folder uri (texts.getLast?.getD "")

def closeDocument (session : Session) (uri : String) : Session :=
  ⟨session.documents.filter fun (other, _) => other != uri⟩

def program? (session : Session) (uri : String) : Option (Program Span) :=
  (session.get? uri).bind Document.program?

/-- The addresses of open documents in order, and whether each has a program. -/
def summary (session : Session) : List (String × Bool) :=
  (session.documents.map fun (uri, document) => (uri, document.program?.isSome)).mergeSort
    fun left right => decide (left.1 ≤ right.1)

/-- The description of the word at a cursor. -/
def hover (session : Session) (uri : String) (line : Int)
    (character : Int) : Except Fault (Option String) :=
  if Region.admits line && Region.admits character then
    match session.get? uri with
    | none => .ok none
    | some document =>
      match document.program? with
      | none => .ok none
      | some program =>
        let word := wordAt document.source line character
        .ok (if word == "" then none else description? program word)
  else .error .number

def suggestions (session : Session) (uri : String) : List Suggestion :=
  Suggestion.all (session.program? uri)

def landmarksOf (session : Session) (uri : String) : List Landmark :=
  match session.program? uri with
  | some program => landmarks program.body
  | none => []

/-- The edit that brings a document into its canonical form. Where spaces are not wanted the
standard width applies. -/
def formatEdit? (machine : Machine) (session : Session) (uri : String) (tabSize : Int)
    (insertSpaces : Bool) : Except Fault (Option (Region × String)) :=
  if Region.admits tabSize then
    match session.get? uri with
    | none => .ok none
    | some document =>
      match document.formatEdit? machine (if insertSpaces then tabSize else 2) with
      | .error fault => .error (.printer fault)
      | .ok edit => .ok edit
  else .error .number

inductive Request where
  | openDocument (uri : String) (text : String)
  | changeDocument (uri : String) (texts : List String)
  | closeDocument (uri : String)
  | hover (uri : String) (line : Int) (character : Int)
  | complete (uri : String)
  | symbols (uri : String)
  | format (uri : String) (tabSize : Int) (insertSpaces : Bool)
deriving DecidableEq, Repr

inductive Reply where
  /-- All notices about the document at an address, to be shown in place of earlier ones. -/
  | published (uri : String) (notices : List Notice)
  | closed
  | description (text : Option String)
  | suggestions (items : List Suggestion)
  | landmarks (items : List Landmark)
  | edit (edit : Option (Region × String))

def publish (session : Session) (uri : String)
    (result : Except Fault (Document × Session)) : Except Fault Reply × Session :=
  match result with
  | .error fault => (.error fault, session)
  | .ok (document, next) => (.ok (.published uri document.notices), next)

def handle (machine : Machine) (files : Files) (folder : Path)
    (session : Session) : Request → Except Fault Reply × Session
  | .openDocument uri text =>
    session.publish uri (session.openDocument machine files folder uri text)
  | .changeDocument uri texts =>
    session.publish uri (session.changeDocument machine files folder uri texts)
  | .closeDocument uri => (.ok .closed, session.closeDocument uri)
  | .hover uri line character =>
    ((session.hover uri line character).map .description, session)
  | .complete uri => (.ok (.suggestions (session.suggestions uri)), session)
  | .symbols uri => (.ok (.landmarks (session.landmarksOf uri)), session)
  | .format uri tabSize insertSpaces =>
    ((session.formatEdit? machine uri tabSize insertSpaces).map .edit, session)

end Session

end Parlance
