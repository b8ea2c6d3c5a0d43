import OtkCore.Core.Pagination
import OtkCore.Node.Authorisation

/-!
# The HTTP interface

The handlers in front of the query port: pages, the live tail and the probes. What
a client is told depends on the port's answers, but never on the text of an
internal error, and for a client without a listed token on nothing but readiness.
-/
namespace OtkCore.Api

/-! ### The query port -/

/-- The errors of the port, with the text of an internal one. -/
inductive QueryError
  | retentionExpired (requested : ℕ) (earliestAvailable : Option ℕ)
  | notFound
  | internal (text : String)
  deriving DecidableEq

/-- What the port answers. A subscription is asked for one item after the other and
ends with `none`. -/
structure EventQueryPort where
  latestOffset : Except QueryError (Option ℕ)
  readEvents : ℕ → ℕ → Except QueryError EventPage
  EventStream : Type
  next : EventStream → Option (Except QueryError EventEntry) × EventStream
  subscribeEvents : ℕ → Except QueryError EventStream

structure ErrorBody where
  error : String
  detail : String
  deriving DecidableEq, Repr

/-- `{:?}` of an optional number. -/
def debugOption : Option ℕ → String
  | none => "None"
  | some n => "Some(" ++ toString n ++ ")"

def evictedDetail (requested : ℕ) (earliestAvailable : Option ℕ) : String :=
  "offset " ++ toString requested ++ " has been evicted; earliest_available=" ++
    debugOption earliestAvailable

def mapQueryError : QueryError → ℕ × ErrorBody
  | .retentionExpired requested earliestAvailable =>
    (410, ⟨"retention_expired", evictedDetail requested earliestAvailable⟩)
  | .notFound => (404, ⟨"not_found", "the requested resource is not present"⟩)
  | .internal _ => (503, ⟨"internal", "storage backend error; see server logs"⟩)

def streamError : QueryError → ErrorBody
  | .retentionExpired requested earliestAvailable =>
    ⟨"retention_expired", evictedDetail requested earliestAvailable⟩
  | .notFound => ⟨"not_found", "not found"⟩
  | .internal _ => ⟨"internal", "storage backend error; see server logs"⟩

inductive SseEvent
  | data (json : String)
  | error (body : ErrorBody)
  deriving DecidableEq

inductive StreamState (S : Type)
  | streaming (source : S)
  | done

section Handlers

-- `serde_json::to_string`; the text of its error is only logged.
variable (toJson : EventEntry → Option String)

/-- What becomes of an item of the subscription, and whether the stream ends with it. -/
def sseItem : Except QueryError EventEntry → SseEvent × Bool
  | .ok entry =>
    match toJson entry with
    | some data => (.data data, false)
    | none =>
      (.error ⟨"serialize_failed", "internal serialization error; see server logs"⟩, true)
  | .error e => (.error (streamError e), true)

def sseNext (p : EventQueryPort) :
    StreamState p.EventStream → Option (SseEvent × StreamState p.EventStream)
  | .done => none
  | .streaming source =>
    match p.next source with
    | (none, _) => none
    | (some item, source) =>
      match sseItem toJson item with
      | (event, true) => some (event, .done)
      | (event, false) => some (event, .streaming source)

/-- The first `n` events of the response. -/
def sseTake (p : EventQueryPort) : ℕ → StreamState p.EventStream → List SseEvent
  | 0, _ => []
  | n + 1, state =>
    match sseNext toJson p state with
    | none => []
    | some (event, state) => event :: sseTake p n state

def maxEventsLimit : ℕ := 1000

def defaultLimit : ℕ := 100

/-- A route with the query parameters of the request. -/
inductive Route
  | healthz
  | readyz
  | metrics
  | status
  | events (start limit : Option ℕ)
  | eventsStream (start : Option ℕ)

/-- A live tail is what the client has of it after so many events. -/
inductive Response
  | status (code : ℕ)
  | text (contentType body : String)
  | latest (nodeId : String) (latestOffset : Option ℕ)
  | page (page : EventPage)
  | failed (code : ℕ) (body : ErrorBody)
  | stream (events : ℕ → List SseEvent)
  | unauthorised (code : ℕ) (wwwAuthenticate body : String)

/-- What the handlers share; `metrics` is the rendered exposition. -/
structure AppState where
  nodeId : String
  apiTokens : List String
  metrics : String

def healthz : Response := .status 200

def readyz (p : EventQueryPort) : Response :=
  match p.latestOffset with
  | .ok _ => .status 200
  | .error _ => .status 503

def metricsEndpoint (state : AppState) : Response :=
  .text "text/plain; version=0.0.4" state.metrics

def status (state : AppState) (p : EventQueryPort) : Response :=
  match p.latestOffset with
  | .ok latestOffset => .latest state.nodeId latestOffset
  | .error _ => .status 503

def refusal (e : QueryError) : Response :=
  let (code, body) := mapQueryError e
  .failed code body

def events (p : EventQueryPort) (start limit : Option ℕ) : Response :=
  match p.readEvents (start.getD 0) (min (limit.getD defaultLimit) maxEventsLimit) with
  | .ok page => .page page
  | .error e => refusal e

def eventsStream (p : EventQueryPort) (start : Option ℕ) : Response :=
  match p.subscribeEvents (start.getD 0) with
  | .ok source => .stream fun n => sseTake toJson p n (.streaming source)
  | .error e => refusal e

/-- The bearer-token middleware in front of a handler. -/
def gated (toStr : List UInt8 → Option String) (state : AppState) (request : Request)
    (handler : Response) : Response :=
  match requireApiToken toStr state.apiTokens request with
  | .forwarded => handler
  | .refused code wwwAuthenticate body => .unauthorised code wwwAuthenticate body

def respond (toStr : List UInt8 → Option String) (state : AppState) (p : EventQueryPort)
    (request : Request) : Route → Response
  | .healthz => healthz
  | .readyz => readyz p
  | .metrics => metricsEndpoint state
  | .status => gated toStr state request (status state p)
  | .events start limit => gated toStr state request (events p start limit)
  | .eventsStream start => gated toStr state request (eventsStream toJson p start)

end Handlers

inductive QueryError.Alike : QueryError → QueryError → Prop
  | refl (e : QueryError) : Alike e e
  | internal (text text' : String) : Alike (.internal text) (.internal text')

/-- Answers that are related, or errors that are alike. -/
inductive Alike {α β : Type} (R : α → β → Prop) : Except QueryError α → Except QueryError β → Prop
  | ok {a : α} {b : β} : R a b → Alike R (.ok a) (.ok b)
  | error {e e' : QueryError} : e.Alike e' → Alike R (.error e) (.error e')

/-- Two ports whose answers, and those of their subscriptions, differ in the texts of
internal errors only. -/
structure EventQueryPort.Alike (p q : EventQueryPort) where
  R : p.EventStream → q.EventStream → Prop
  latestOffset : Api.Alike Eq p.latestOffset q.latestOffset
  readEvents : ∀ start limit, Api.Alike Eq (p.readEvents start limit) (q.readEvents start limit)
  subscribeEvents : ∀ start, Api.Alike R (p.subscribeEvents start) (q.subscribeEvents start)
  next : ∀ s t, R s t → Option.Rel (Api.Alike Eq) (p.next s).1 (q.next t).1 ∧
    R (p.next s).2 (q.next t).2

variable {toJson : EventEntry → Option String} {p q : EventQueryPort}

theorem QueryError.Alike.mapQueryError {e e' : QueryError} (h : e.Alike e') :
    Api.mapQueryError e = Api.mapQueryError e' := by
  cases h <;> rfl

theorem sseItem_alike {a b : Except QueryError EventEntry} (h : Alike Eq a b) :
    sseItem toJson a = sseItem toJson b := by
  cases h with
  | ok hab => rw [hab]
  | error he => cases he <;> rfl

theorem sseTake_alike (toJson : EventEntry → Option String) (h : p.Alike q) (n : ℕ)
    {s : p.EventStream} {t : q.EventStream}
    (hst : h.R s t) : sseTake toJson p n (.streaming s) = sseTake toJson q n (.streaming t) := by
  induction n generalizing s t with
  | zero => rfl
  | succ n ih =>
    obtain ⟨hitem, hnext⟩ := h.next s t hst
    rw [sseTake, sseTake, sseNext, sseNext]
    cases hp : p.next s with
    | mk item s' =>
      cases hq : q.next t with
      | mk item' t' =>
        rw [hp, hq] at hitem hnext
        cases hitem with
        | none => rfl
        | some halike =>
          dsimp only
          rw [sseItem_alike halike]
          rcases sseItem toJson _ with ⟨event, - | -⟩
          · exact congrArg (event :: ·) (ih hnext)
          · cases n <;> rfl

/-- Whatever a client sends, it cannot tell two nodes apart whose ports differ in the
texts of internal errors only. -/
theorem respond_alike (toStr : List UInt8 → Option String) (state : AppState) (h : p.Alike q)
    (request : Request) (route : Route) :
    respond toJson toStr state p request route = respond toJson toStr state q request route := by
  cases route with
  | healthz => rfl
  | metrics => rfl
  | readyz =>
    have hlatest := h.latestOffset
    rw [respond, respond, readyz, readyz]
    generalize p.latestOffset = a, q.latestOffset = b at hlatest ⊢
    cases hlatest <;> rfl
  | status =>
    have hlatest := h.latestOffset
    rw [respond, respond, status, status]
    generalize p.latestOffset = a, q.latestOffset = b at hlatest ⊢
    cases hlatest with
    | ok hab => rw [hab]
    | error he => rfl
  | events start limit =>
    have hread := h.readEvents (start.getD 0) (min (limit.getD defaultLimit) maxEventsLimit)
    rw [respond, respond, events, events]
    generalize p.readEvents _ _ = a, q.readEvents _ _ = b at hread ⊢
    cases hread with
    | ok hab => rw [hab]
    | error he => simp only [refusal, he.mapQueryError]
  | eventsStream start =>
    have hsubscribe := h.subscribeEvents (start.getD 0)
    rw [respond, respond, eventsStream, eventsStream]
    generalize p.subscribeEvents _ = a, q.subscribeEvents _ = b at hsubscribe ⊢
    cases hsubscribe with
    | ok hst =>
      have htake := funext fun n => sseTake_alike toJson h n hst
      simp only [htake]
    | error he => simp only [refusal, he.mapQueryError]

def samplePort (text : String) : EventQueryPort where
  latestOffset := .error (.internal text)
  readEvents := fun _ _ => .error (.internal text)
  EventStream := ℕ
  next := fun n => (if n = 0 then some (.error (.internal text)) else none, n + 1)
  subscribeEvents := fun _ => .ok 0

def samplePort_alike (text text' : String) : (samplePort text).Alike (samplePort text') where
  R := fun (s t : ℕ) => s = t
  latestOffset := .error (.internal text text')
  readEvents := fun _ _ => .error (.internal text text')
  subscribeEvents := fun _ => .ok rfl
  next := by
    rintro (n : ℕ) _ rfl
    refine ⟨?_, rfl⟩
    cases n with
    | zero => exact .some (.error (.internal text text'))
    | succ n => exact .none

theorem respond_alike_sample :
    respond (fun _ => some "") visibleText ⟨"n", [], ""⟩ (samplePort "/data/0.seg") ⟨[]⟩
        (.eventsStream none) =
      respond (fun _ => some "") visibleText ⟨"n", [], ""⟩ (samplePort "") ⟨[]⟩
        (.eventsStream none) :=
  respond_alike visibleText _ (samplePort_alike "/data/0.seg" "") _ _

theorem gated_refused {toStr : List UInt8 → Option String} {state : AppState} {request : Request}
    (h : requireApiToken toStr state.apiTokens request ≠ .forwarded) :
    ∃ response, ∀ handler, gated toStr state request handler = response := by
  cases hdecision : requireApiToken toStr state.apiTokens request with
  | forwarded => exact absurd hdecision h
  | refused code wwwAuthenticate body =>
    refine ⟨.unauthorised code wwwAuthenticate body, fun handler => ?_⟩
    rw [gated, hdecision]

/-- A client without a listed token cannot tell two nodes apart that have the same
tokens, metrics and readiness, whatever their logs hold. -/
theorem respond_unlisted {toStr : List UInt8 → Option String} (hstr : ReadsVisibleAscii toStr)
    {state state' : AppState} (htokens : state.apiTokens = state'.apiTokens)
    (hmetrics : state.metrics = state'.metrics) (hlisted : state.apiTokens ≠ [])
    (hready : p.latestOffset.isOk = q.latestOffset.isOk) {request : Request}
    (hnone : ∀ value ∈ request.authorization.head?, ∀ token ∈ state.apiTokens,
      ¬ IsBearer value (Utf8.bytes token)) (route : Route) :
    respond toJson toStr state p request route = respond toJson toStr state' q request route := by
  have hrefused : requireApiToken toStr state.apiTokens request ≠ .forwarded := by
    intro h
    rcases (requireApiToken_forwarded_iff hstr).mp h with
      hempty | ⟨value, hvalue, -, token, htoken, hbearer⟩
    · exact hlisted hempty
    · exact hnone value hvalue token htoken hbearer
  obtain ⟨response, hresponse⟩ := gated_refused hrefused
  have hresponse' : ∀ handler, gated toStr state' request handler = response := by
    intro handler
    rw [← hresponse handler, gated, gated, htokens]
  cases route with
  | healthz => rfl
  | readyz =>
    rw [respond, respond, readyz, readyz]
    generalize p.latestOffset = a, q.latestOffset = b at hready ⊢
    cases a <;> cases b <;> first | rfl | cases hready
  | metrics => rw [respond, respond, metricsEndpoint, metricsEndpoint, hmetrics]
  | status => rw [respond, respond, hresponse, hresponse']
  | events start limit => rw [respond, respond, hresponse, hresponse']
  | eventsStream start => rw [respond, respond, hresponse, hresponse']

/-- A token that is not listed, and two logs, one of them empty. -/
theorem respond_unlisted_sample :
    respond (fun _ => some "") visibleText ⟨"n", ["t"], ""⟩
        { samplePort "" with latestOffset := .ok (some 5) } ⟨[Utf8.bytes "Bearer u"]⟩ .status =
      respond (fun _ => some "") visibleText ⟨"n'", ["t"], ""⟩
        { samplePort "" with latestOffset := .ok none } ⟨[Utf8.bytes "Bearer u"]⟩ .status := by
  refine respond_unlisted readsVisibleAscii_visibleText rfl rfl (by decide) rfl ?_ .status
  intro value hvalue token htoken
  obtain rfl := Option.some.inj hvalue
  obtain rfl := List.mem_singleton.mp htoken
  rw [isBearer_iff (List.all_iff_forall_prop.mp (by decide +kernel))]
  decide +kernel

end OtkCore.Api
