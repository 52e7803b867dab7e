import SchemaForge.Json.Reader
import SchemaForge.Report

/-!
# Migrations of a server

A sync server answers a request for its status with a JSON document that lists the migrations of a
project and the status of each. The request goes through a `Transport`, which is whatever carries
it; all else is decided here.
-/

namespace SchemaForge

/-- A request for a document. -/
structure Request where
  /-- Where the document is. -/
  url : String
  /-- The headers by name. -/
  headers : List (String × String)
  /-- The number of seconds to wait for an answer. -/
  timeout : Scalar

/-- What becomes of a request. All but the last of these are foreseen, and become a
`StatusCause`. -/
inductive Reply where
  /-- The server answers with a status, the reason for it, and the bytes of a text. -/
  | answer (status : Int) (reason : String) (body : List UInt8)
  /-- The request fails on its way. -/
  | unreachable (text : String)
  /-- The answer cannot be understood. -/
  | unreadable (text : String)
  /-- The transport breaks down. -/
  | broken

/-- What carries requests: any function. The theorems hold for all of them. -/
abbrev Transport := Request → Reply

/-- Why a server's status is not known. `StatusCause.wording` words it. -/
inductive StatusCause where
  /-- The request has failed. -/
  | notFetched (reason : String)
  /-- The answer is not JSON. -/
  | notJson (reason : String)
  /-- The answer does not describe a project. -/
  | noProject

/-- The wording of a cause. -/
def StatusCause.wording : StatusCause → String
  | .notFetched reason => "Failed to fetch migration status: " ++ reason
  | .notJson reason => "Migration status is not valid JSON: " ++ reason
  | .noProject => "Migration status has no 'project' section"

/-- A failed request for a status. -/
structure StatusError where
  /-- Why the status is not known. -/
  cause : StatusCause
  /-- Where it was asked for. -/
  url : String

/-- What the user is told of a failed request. -/
def StatusError.report (e : StatusError) : Report :=
  { wording := e.cause.wording, document := some e.url }

/-- A server that knows the status of migrations. -/
structure Server where
  /-- The address of the server. -/
  url : String
  /-- The token that grants access; an empty one is none. -/
  token : Option String := none
  /-- The number of seconds to wait for an answer. -/
  timeout : Scalar := .float (.ofInt 10)

namespace Server

/-- The address without the slashes at its end. -/
def trimmedUrl (s : Server) : String :=
  String.ofList (s.url.toList.reverse.dropWhile (· = '/')).reverse

/-- The headers that show the token. -/
def authorization (s : Server) : List (String × String) :=
  match s.token with
  | some token => if token.isEmpty then [] else [("Authorization", "Bearer " ++ token)]
  | none => []

/-- The request for the status. -/
def request (s : Server) : Request :=
  { url := s.trimmedUrl ++ "/migration/status"
    headers := ("Accept", "application/json") :: s.authorization
    timeout := s.timeout }

/-- The complaint about an answer whose status announces an error; there is none below 400 and from
600 on. -/
def complaint? (url : String) (status : Int) (reason : String) : Option String :=
  let side :=
    if 400 ≤ status ∧ status < 500 then some "Client"
    else if 500 ≤ status ∧ status < 600 then some "Server"
    else none
  side.map fun side =>
    Number.intText status ++ " " ++ side ++ " Error: " ++ reason ++ " for url: " ++ url

/-- The document in the reply to a request. An answer that announces an error is one however its
text reads, and a text that is not JSON counts as not fetched. -/
def document (url : String) : Reply → Outcome StatusCause Value
  | .answer status reason body =>
    match complaint? url status reason with
    | some text => refuse (.notFetched text)
    | none =>
      let text := Text.decode body
      match Json.read text with
      | .ok v => .ok v
      | .error e => refuse (.notFetched (e.message text))
  | .unreachable text => refuse (.notFetched text)
  | .unreadable text => refuse (.notJson text)
  | .broken => .error (.broken .transport)

/-- A document has to be a mapping with a project, which has to be a mapping too. -/
def requireProject (v : Value) : Outcome StatusCause Value := do
  match v.entries? with
  | some entries =>
    if ((Value.field? "project" entries).getD .null).isMapping then return v
    else refuse .noProject
  | none => refuse .noProject

/-- The status document of the server: `request` is sent, and its reply has to be a document with a
project (section 6.2 of the specification). -/
def fetchStatus (s : Server) (transport : Transport) : Outcome StatusError Value :=
  let request := s.request
  Outcome.seenAs (⟨·, request.url⟩) do
    requireProject (← document request.url (transport request))

end Server

/-! ## The migrations to use -/

/-- The statuses of migrations that the schema is to reflect. -/
def applicableStatuses : List Value := [.str "IN_SYNC", .str "UNAPPLIED"]

/-- The value under any key, absent if there is none; a key that cannot be looked up breaks down. -/
def lookUp (key : Value) (entries : List (Scalar × Value)) : Except Fault Value :=
  match key with
  | .scalar s => .ok ((Entries.get? s entries).getD .null)
  | _ => if key.isHashable then .ok .null else .error .wrongKind

/-- The status of a version: by its text, and otherwise by the version itself. Both are looked up,
whichever is found. -/
def statusOf (version statuses : Value) : Except Fault Value :=
  match statuses.entries? with
  | some entries => do
    -- The version itself is looked up first, since it may be no key at all.
    let other ← lookUp version entries
    return (Value.field? version.text entries).getD other
  | none => .error .noMember

/-- Whether a migration is to be used: its status is one of `applicableStatuses`. -/
def isApplicable (statuses migration : Value) : Except Fault Bool := do
  let status ← statusOf (← migration.get "version") statuses
  if status.isComparable then return applicableStatuses.any status.same else .error .wrongKind

/-- The migrations of a status document that are to be used, in the order in which the server lists
them. -/
def selectApplicable (status : Value) : Except Fault (List Value) := do
  -- Whatever does not count as true is passed over like a section that is missing.
  let project := (← status.get "project").orElse (.mapping [])
  let statuses := (← project.get "statuses").orElse (.mapping [])
  let migrations ← ((← project.get "migrations").orElse (.list [])).elements
  migrations.filterM (isApplicable statuses)

end SchemaForge
