import Parlance.Session

/-!
Contract: what a session knows after a row of requests.

Every request either sets what is known about one document, or closes one, or leaves the session as
it is; a request that fails leaves it as it is too. So what is known about a document is decided by
the last request that set or closed it, whatever happened to other documents. Owns: conversations,
the text that stands for a document at their end, and the theorem about the session behind them.
Does not own: how a text is analysed.
-/

namespace Parlance.Session

/-! ## Conversations -/

structure Exchange where
  request : Request
  reply : Except Fault Reply

/-- The exchanges over a row of requests, and the session behind them. -/
def converse (machine : Machine) (files : Files)
    (folder : Path) : Session → List Request → List Exchange × Session
  | session, [] => ([], session)
  | session, request :: rest =>
    let answered := session.handle machine files folder request
    let following := converse machine files folder answered.2 rest
    (⟨request, answered.1⟩ :: following.1, following.2)

/-- The address of the document that a request has analysed. -/
def Request.analysed? : Request → Option String
  | .openDocument uri _ | .changeDocument uri _ => some uri
  | _ => none

def Request.asks : Request → Bool
  | .hover .. | .complete _ | .symbols _ | .format .. => true
  | _ => false

/-- What a request makes of the document at an address: nothing, or a closed document, or one with
the given text. -/
def Request.sets? (uri : String) : Request → Option (Option String)
  | .openDocument other text => if other == uri then some (some text) else none
  | .changeDocument other texts =>
    if other == uri then some (some (texts.getLast?.getD "")) else none
  | .closeDocument other => if other == uri then some none else none
  | _ => none

/-- What an exchange makes of the document at an address. A request that fails does nothing. -/
def Exchange.sets? (uri : String) (exchange : Exchange) : Option (Option String) :=
  match exchange.reply with
  | .ok _ => exchange.request.sets? uri
  | .error _ => none

/-- What the last exchange that made anything of the document at an address made of it. -/
def standing? (uri : String) (exchanges : List Exchange) : Option (Option String) :=
  (exchanges.filterMap (Exchange.sets? uri)).getLast?

def analysis? (machine : Machine) (files : Files) (folder : Path) (uri : String)
    (text : String) : Option Document :=
  match Session.empty.openDocument machine files folder uri text with
  | .ok (document, _) => some document
  | .error _ => none

/-- What is known about a document that was known before, when something was made of it. -/
def remembered (machine : Machine) (files : Files) (folder : Path) (uri : String)
    (before : Option Document) : Option (Option String) → Option Document
  | none => before
  | some none => none
  | some (some text) => analysis? machine files folder uri text

/-! ## One request -/

section Step

variable {machine : Machine} {files : Files} {folder : Path} {session next : Session}
  {request : Request} {reply : Except Fault Reply} {uri : String}

theorem get?_put (document : Document) (wanted : String) :
    (session.put uri document).get? wanted =
      if wanted == uri then some document else session.get? wanted :=
  Keyed.lookup_put uri document session.documents wanted

theorem get?_closeDocument (wanted : String) :
    (session.closeDocument uri).get? wanted =
      if wanted == uri then none else session.get? wanted :=
  Keyed.lookup_filter_bne uri session.documents wanted

inductive Handled (machine : Machine) (files : Files) (folder : Path)
    (session : Session) : Request → Except Fault Reply → Session → Prop where
  /-- There are no settings for the document. -/
  | fails {request : Request} {uri : String} {fault : Fault}
      (analysed : request.analysed? = some uri)
      (unsettled : settingsFor files folder uri = .error fault) :
      Handled machine files folder session request (.error fault) session
  | publishes {request : Request} {uri text : String} {settings : Settings} {document : Document}
      (analysed : request.analysed? = some uri)
      (sets : ∀ wanted, request.sets? wanted = if uri == wanted then some (some text) else none)
      (settled : settingsFor files folder uri = .ok settings)
      (analysis : analysis? machine files folder uri text = some document) :
      Handled machine files folder session request (.ok (.published uri document.notices))
        (session.put uri document)
  | closes (uri : String) :
      Handled machine files folder session (.closeDocument uri) (.ok .closed)
        (session.closeDocument uri)
  | answers {request : Request} {reply : Except Fault Reply} (asks : request.asks = true) :
      Handled machine files folder session request reply session

/-- The analysis of a document fails for want of settings, or the document is known from then on. -/
theorem handled_analysis {text : String} (analysed : request.analysed? = some uri)
    (sets : ∀ wanted, request.sets? wanted = if uri == wanted then some (some text) else none) :
    Handled machine files folder session request
      (session.publish uri (session.update machine files folder uri text)).1
      (session.publish uri (session.update machine files folder uri text)).2 := by
  cases found : settingsFor files folder uri with
  | error fault =>
    simp only [update, found, publish]
    exact .fails analysed found
  | ok settings =>
    have analysis : analysis? machine files folder uri text =
        some (Document.analyse machine settings text) := by
      simp only [analysis?, openDocument, update, found]
    simp only [update, found, publish]
    exact .publishes analysed sets found analysis

theorem handled (machine : Machine) (files : Files) (folder : Path) (session : Session)
    (request : Request) :
    Handled machine files folder session request (session.handle machine files folder request).1
      (session.handle machine files folder request).2 := by
  cases request with
  | openDocument uri text => exact handled_analysis rfl fun _ => rfl
  | changeDocument uri texts => exact handled_analysis rfl fun _ => rfl
  | closeDocument uri => exact .closes uri
  | hover | complete | symbols | format => exact .answers rfl

theorem Request.analysed?_of_asks (asks : request.asks = true) : request.analysed? = none := by
  cases request with
  | hover | complete | symbols | format => rfl
  | openDocument | changeDocument | closeDocument => cases asks

theorem Exchange.sets?_of_asks (asks : request.asks = true) (reply : Except Fault Reply)
    (uri : String) :
    Exchange.sets? uri ⟨request, reply⟩ = none := by
  cases reply with
  | error => rfl
  | ok =>
    cases request with
    | hover | complete | symbols | format => rfl
    | openDocument | changeDocument | closeDocument => cases asks

/-- How a request and its reply account for what became of a session. A request that fails and one
that only asks leave it as it was. An analysis fails exactly if there are no settings for the
document, for the reason there are none, and otherwise publishes the notices about the document that
is known from then on. -/
structure Accounts (files : Files) (folder : Path) (session : Session) (request : Request)
    (reply : Except Fault Reply) (next : Session) : Prop where
  failing : ∀ fault, reply = .error fault → next = session
  asking : request.asks = true → next = session
  unsettled : ∀ uri fault, request.analysed? = some uri →
    (reply = .error fault ↔ settingsFor files folder uri = .error fault)
  publishing : ∀ uri settings, request.analysed? = some uri →
    settingsFor files folder uri = .ok settings →
      ∃ document, next.get? uri = some document ∧ reply = .ok (.published uri document.notices)

theorem Handled.accounts (handled : Handled machine files folder session request reply next) :
    Accounts files folder session request reply next := by
  cases handled with
  | @fails request uri fault analysed unsettled =>
    refine ⟨fun _ _ => rfl, fun _ => rfl, fun other cause isOther => ?_,
      fun other settings isOther settled => ?_⟩
    all_goals obtain rfl := Option.some.inj (analysed.symm.trans isOther)
    · rw [unsettled, Except.error.injEq, Except.error.injEq]
    · rw [unsettled] at settled
      cases settled
  | @publishes request uri text settings document analysed sets settled analysis =>
    refine ⟨fun _ failed => (by cases failed), fun asks => ?_, fun other cause isOther => ?_,
      fun other settings isOther _ => ?_⟩
    · rw [Request.analysed?_of_asks asks] at analysed
      cases analysed
    · obtain rfl := Option.some.inj (analysed.symm.trans isOther)
      rw [settled]
      exact ⟨nofun, nofun⟩
    · obtain rfl := Option.some.inj (analysed.symm.trans isOther)
      exact ⟨document, by simp [get?_put], rfl⟩
  | closes uri => exact ⟨fun _ failed => (by cases failed), nofun, nofun, nofun⟩
  | answers asks =>
    have unanalysed := Request.analysed?_of_asks asks
    refine ⟨fun _ _ => rfl, fun _ => rfl, fun uri _ analysed => ?_, fun uri _ analysed => ?_⟩
    all_goals
      rw [unanalysed] at analysed
      cases analysed

theorem Handled.get?_eq (handled : Handled machine files folder session request reply next)
    (uri : String) :
    next.get? uri =
      remembered machine files folder uri (session.get? uri)
        (Exchange.sets? uri ⟨request, reply⟩) := by
  cases handled with
  | fails => rfl
  | @publishes request other text settings document analysed sets settled analysis =>
    rw [get?_put, Exchange.sets?, sets]
    by_cases same : other = uri
    · subst same
      simp [remembered, analysis]
    · simp [remembered, same, Ne.symm same]
  | closes other =>
    rw [get?_closeDocument, Exchange.sets?, Request.sets?]
    by_cases same : other = uri
    · simp [remembered, same]
    · simp [remembered, same, Ne.symm same]
  | answers asks => rw [Exchange.sets?_of_asks asks, remembered]

theorem Handled.exists_analysis {text : String}
    (handled : Handled machine files folder session request reply next)
    (set : Exchange.sets? uri ⟨request, reply⟩ = some (some text)) :
    ∃ document, analysis? machine files folder uri text = some document := by
  cases handled with
  | fails => cases set
  | @publishes request other own settings document analysed sets settled analysis =>
    rw [Exchange.sets?, sets] at set
    by_cases same : other = uri
    · subst same
      obtain rfl : own = text := by simpa using set
      exact ⟨document, analysis⟩
    · simp [same] at set
  | closes other =>
    rw [Exchange.sets?, Request.sets?] at set
    by_cases same : other = uri <;> simp [same] at set
  | answers asks =>
    rw [Exchange.sets?_of_asks asks] at set
    cases set

end Step

/-! ## A whole conversation -/

section Run

variable (machine : Machine) (files : Files) (folder : Path)

theorem standing?_cons (uri : String) (exchange : Exchange) (rest : List Exchange) :
    standing? uri (exchange :: rest) = (standing? uri rest).or (exchange.sets? uri) := by
  unfold standing?
  cases set : exchange.sets? uri with
  | none => rw [List.filterMap_cons_none set, Option.or_none]
  | some made =>
    rw [List.filterMap_cons_some set, List.getLast?_cons]
    cases (rest.filterMap (Exchange.sets? uri)).getLast? <;> rfl

/-- What is known about a document behind a conversation is decided by what the last exchange made
of it, and by what was known before only if no exchange made anything of it. -/
theorem get?_converse (session : Session) (requests : List Request) (uri : String) :
    (converse machine files folder session requests).2.get? uri =
      remembered machine files folder uri (session.get? uri)
        (standing? uri (converse machine files folder session requests).1) := by
  induction requests generalizing session with
  | nil => rfl
  | cons request rest ih =>
    have step := (handled machine files folder session request).get?_eq uri
    rw [converse]
    dsimp only
    rw [ih, step, standing?_cons]
    cases standing? uri
      (converse machine files folder (handle machine files folder session request).2 rest).1 with
    | none => rw [Option.none_or]; rfl
    | some made => cases made <;> rfl

theorem exists_analysis_of_standing {session : Session} {requests : List Request}
    {uri text : String}
    (stands : standing? uri (converse machine files folder session requests).1 = some (some text)) :
    ∃ document, analysis? machine files folder uri text = some document := by
  induction requests generalizing session with
  | nil => cases stands
  | cons request rest ih =>
    rw [converse, standing?_cons, Option.or_eq_some_iff] at stands
    rcases stands with later | ⟨-, here⟩
    · exact ih later
    · exact (handled machine files folder session request).exists_analysis here

end Run

theorem Document.program_or_notice (document : Document) :
    (document.program?.isSome = true ∧ document.notices = []) ∨
      (document.program? = none ∧ ∃ notice, document.notices = [notice]) := by
  obtain ⟨source, outcome⟩ := document
  cases outcome with
  | ok program => exact .inl ⟨rfl, rfl⟩
  | error notice => exact .inr ⟨rfl, notice, rfl⟩

theorem exists_open_of_analysis? {machine : Machine} {files : Files} {folder : Path}
    {uri text : String} {document : Document}
    (analysis : analysis? machine files folder uri text = some document) :
    ∃ alone, Session.empty.openDocument machine files folder uri text = .ok (document, alone) := by
  unfold analysis? at analysis
  split at analysis
  · rename_i found alone opened
    obtain rfl := Option.some.inj analysis
    exact ⟨alone, opened⟩
  · cases analysis

/-- A session knows the analysis of the last text of each document. Behind a conversation that began
with nothing, a document is known exactly if the last request that set or closed it without failing
set it, and then what is known is the analysis of its text in a session of its own. Every document
that is known has a program or one notice, and every request accounts for what it did. -/
theorem converse_remembers_last_texts (machine : Machine) (files : Files) (folder : Path)
    (requests : List Request) :
    let conversation := converse machine files folder .empty requests
    (∀ uri, (∃ document, conversation.2.get? uri = some document) ↔
        ∃ text, standing? uri conversation.1 = some (some text)) ∧
      (∀ uri text, standing? uri conversation.1 = some (some text) →
        ∃ document alone,
          Session.empty.openDocument machine files folder uri text = .ok (document, alone) ∧
          conversation.2.get? uri = some document) ∧
      (∀ uri document, conversation.2.get? uri = some document →
        (document.program?.isSome = true ∧ document.notices = []) ∨
          (document.program? = none ∧ ∃ notice, document.notices = [notice])) ∧
      ∀ before request after, requests = before ++ request :: after →
        let session := (converse machine files folder .empty before).2
        Accounts files folder session request (session.handle machine files folder request).1
          (session.handle machine files folder request).2 := by
  intro conversation
  have known : ∀ uri, conversation.2.get? uri =
      remembered machine files folder uri none (standing? uri conversation.1) :=
    get?_converse machine files folder .empty requests
  have analysed : ∀ uri text, standing? uri conversation.1 = some (some text) →
      ∃ document, analysis? machine files folder uri text = some document ∧
        conversation.2.get? uri = some document := by
    intro uri text stands
    obtain ⟨document, analysis⟩ := exists_analysis_of_standing machine files folder stands
    refine ⟨document, analysis, ?_⟩
    rw [known, stands, remembered, analysis]
  refine ⟨fun uri => ⟨fun isKnown => ?_, fun stands => ?_⟩, fun uri text stands => ?_,
    fun _ document _ => document.program_or_notice,
    fun before request _ _ => (handled machine files folder _ request).accounts⟩
  · obtain ⟨document, isKnown⟩ := isKnown
    rw [known] at isKnown
    cases stands : standing? uri conversation.1 with
    | none => simp [stands, remembered] at isKnown
    | some made =>
      cases made with
      | none => simp [stands, remembered] at isKnown
      | some text => exact ⟨text, rfl⟩
  · obtain ⟨text, stands⟩ := stands
    obtain ⟨document, -, isKnown⟩ := analysed uri text stands
    exact ⟨document, isKnown⟩
  · obtain ⟨document, analysis, isKnown⟩ := analysed uri text stands
    obtain ⟨alone, opened⟩ := exists_open_of_analysis? analysis
    exact ⟨document, alone, opened, isKnown⟩

end Parlance.Session
