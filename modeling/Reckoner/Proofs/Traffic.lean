import Reckoner.Page
import Reckoner.Proofs.Fronts

/-!
# Reckoner.Proofs.Traffic — what is recorded of all that arrives

Requests over HTTP and remote calls come in any order and share one history. What an arrival leaves
behind in the history is said by `Records`: a posted source that is taken, and the source of a call
that evaluates, are recorded with their runs; all else leaves no trace. One arrival changes the
history by just that (`Arrival.snd_serve`), and so does a whole sequence of them (`serveAll_eq`).

What bodies of requests are understood, and as which sources, is up to the decoder; nothing is asked
of it here. Beside the routes of the interpreter a site may have others, such as its pages, as long
as they only look at the history (`Route.ReadOnly`).

Main statement: `serveAll_records`.
-/

namespace Reckoner

/-! ## Routes that only look -/

namespace Http

variable {σ : Type}

/-- What is found is a route of the list that fits the path and answers the method. -/
theorem find?_eq_some {method path parameter : Bytes} {routes : List (Route σ)} {route : Route σ}
    (h : find? method path routes = some (route, parameter)) :
    route ∈ routes ∧ route.pattern.match? path = some parameter ∧ route.answers method = true := by
  induction routes with
  | nil => cases h
  | cons first rest ih =>
    have hbehind : find? method path rest = some (route, parameter) → route ∈ first :: rest ∧
        route.pattern.match? path = some parameter ∧ route.answers method = true := by
      intro hrest
      obtain ⟨hmem, hfits⟩ := ih hrest
      exact ⟨List.mem_cons_of_mem first hmem, hfits⟩
    rw [find?] at h
    split at h
    · next parameter' hmatch =>
      split at h
      · next hanswers =>
        cases h
        exact ⟨List.mem_cons_self, hmatch, hanswers⟩
      · exact hbehind h
    · exact hbehind h

/-- Does a route leave the state as it is? -/
def Route.ReadOnly (route : Route σ) : Prop :=
  ∀ parameter request state, (route.handle parameter request state).2 = state

/-- The state behind a request is the one that the handler leaves, if there is one. -/
theorem snd_dispatch (routes : List (Route σ)) (request : Request) (state : σ) :
    (dispatch routes request state).2
      = (find? request.method (pathOf request.target) routes).elim state
          fun found => (found.1.handle found.2 request state).2 := by
  unfold dispatch
  cases find? request.method (pathOf request.target) routes with
  | none =>
    dsimp only
    split <;> rfl
  | some found =>
    dsimp only
    split <;> rfl

end Http

theorem Page.readOnly_routes (version : Bytes) (age : Evaluation → Int) :
    ∀ route ∈ routes version age, route.ReadOnly := by
  simp only [routes, List.forall_mem_cons]
  exact ⟨fun _ _ _ => rfl, fun _ _ _ => rfl, fun _ _ _ => rfl, fun _ _ _ => rfl,
    fun _ h => absurd h List.not_mem_nil⟩

/-! ## Requests -/

namespace Api

open Http

variable {decode : Decoder}

/-- All routes but the one for evaluating. -/
theorem readOnly_routes (t : History.Timing) (patience : Patience) :
    ∀ route ∈ (routes decode t patience).tail, route.ReadOnly := by
  simp only [routes, List.tail_cons, List.forall_mem_cons]
  exact ⟨fun _ _ _ => rfl, fun _ _ _ => rfl, fun _ _ _ => rfl, fun _ _ _ => rfl,
    fun _ h => absurd h List.not_mem_nil⟩

/-- The source that a request posts to be evaluated, if it is taken. -/
def postedSource? (decode : Decoder) (r : Request) : Option Bytes :=
  if r.method = utf8 "POST" ∧ comparable (pathOf r.target) = utf8 "/v1/evaluate"
      ∧ r.body.length ≤ maxBodySize then
    (decode r).toOption.filter fun source => source.length ≤ maxSourceSize
  else none

theorem postedSource?_eq_some_iff {r : Request} {source : Bytes} :
    postedSource? decode r = some source ↔
      Carries decode r source ∧ source.length ≤ maxSourceSize := by
  have hdecode : (decode r).toOption = some source ↔ decode r = .ok source := by
    cases decode r <;> simp [Except.toOption]
  unfold postedSource?
  constructor
  · intro h
    split at h
    · next hroute =>
      obtain ⟨hbody, hsize⟩ := Option.filter_eq_some_iff.1 h
      exact ⟨⟨hroute.1, hroute.2.1, hroute.2.2, hdecode.1 hbody⟩, of_decide_eq_true hsize⟩
    · cases h
  · rintro ⟨hr, hsize⟩
    rw [if_pos ⟨hr.method, hr.path, hr.size⟩]
    exact Option.filter_eq_some_iff.2 ⟨hdecode.2 hr.source, decide_eq_true hsize⟩

/-- A source that is read was decoded and is not too long. -/
theorem readSource_eq_ok {r : Request} {source : Bytes} (h : readSource decode r = .ok source) :
    decode r = .ok source ∧ source.length ≤ maxSourceSize := by
  unfold readSource at h
  split at h
  · cases h
  · next decoded hbody =>
    split at h
    · cases h
    · next hsize =>
      cases h
      exact ⟨hbody, Nat.not_lt.1 hsize⟩

variable {t : History.Timing} {patience : Patience} {more : List (Route History)}
  (hmore : ∀ route ∈ more, route.ReadOnly)

include hmore

/-- A request leaves the history as it is unless it posts a source that is taken. -/
theorem snd_serve_of_none {r : Request} (hr : postedSource? decode r = none) (h : History) :
    (serve (routes decode t patience ++ more) r h).2 = h := by
  unfold serve
  split
  · rfl
  next hsize =>
  rw [snd_dispatch]
  cases hfind : find? r.method (pathOf r.target) (routes decode t patience ++ more) with
  | none => rfl
  | some found =>
    obtain ⟨route, parameter⟩ := found
    obtain ⟨hmem, hmatch, hanswers⟩ := find?_eq_some hfind
    show (route.handle parameter r h).2 = h
    have hcases : route
        = ⟨"POST", .exactly "/v1/evaluate", fun _ r h => evaluate decode patience t r h⟩ ∨
        route ∈ (routes decode t patience).tail ++ more := List.mem_cons.1 hmem
    rcases hcases with rfl | hother
    · -- the route was found, so only the body can be what is wrong with the request
      have hpath : comparable (pathOf r.target) = utf8 "/v1/evaluate" := by
        by_contra hne
        simp only [Pattern.match?, if_neg hne] at hmatch
        cases hmatch
      have hmethod : r.method = utf8 "POST" := by
        simpa [Route.answers, eq_comm] using hanswers
      show (evaluate decode patience t r h).2 = h
      cases hread : readSource decode r with
      | error response => simp only [evaluate, hread]
      | ok source =>
        obtain ⟨hbody, hlength⟩ := readSource_eq_ok hread
        have hposted := postedSource?_eq_some_iff.2
          ⟨⟨hmethod, hpath, Nat.not_lt.1 hsize, hbody⟩, hlength⟩
        cases hr.symm.trans hposted
    · rcases List.mem_append.1 hother with hmem | hmem
      · exact readOnly_routes t patience route hmem parameter r h
      · exact hmore route hmem parameter r h

end Api

/-! ## Arrivals -/

/-- What reaches the service: a request, or a call that evaluates or parses a source. An evaluation
goes on as long as its caller is patient, and has its timing. -/
inductive Arrival where
  | request (r : Http.Request) (patience : Patience) (t : History.Timing)
  | evaluateCall (source : Bytes) (patience : Patience) (t : History.Timing)
  | parseCall (source : Bytes)

/-- The answer to an arrival. -/
inductive Reply where
  | response (r : Http.Response)
  | evaluation (answer : Except Rpc.Status Rpc.EvaluationMessage)
  | trees (answer : Except Rpc.Status (List Bytes))

namespace Arrival

/-- Answers an arrival; requests find the routes of the interpreter and then `more` of them. -/
def serve (decode : Api.Decoder) (more : List (Http.Route History)) (a : Arrival) (h : History) :
    Reply × History :=
  match a with
  | request r patience t =>
    let (response, h) := Api.serve (Api.routes decode t patience ++ more) r h
    (.response response, h)
  | evaluateCall source patience t =>
    let (answer, h) := Rpc.evaluate h t patience source
    (.evaluation answer, h)
  | parseCall source => (.trees (Rpc.parse source), h)

/-- The history behind arrivals that are answered one after the other. -/
def serveAll (decode : Api.Decoder) (more : List (Http.Route History)) (h : History)
    (arrivals : List Arrival) : History :=
  arrivals.foldl (fun h a => (a.serve decode more h).2) h

/-- `Records decode a e`: the arrival is to be recorded as this entry. -/
inductive Records (decode : Api.Decoder) : Arrival → History.Entry → Prop
  | posted {r : Http.Request} {source : Bytes} (patience : Patience) (t : History.Timing)
      (hr : Api.Carries decode r source) (hsize : source.length ≤ Api.maxSourceSize) :
      Records decode (request r patience t) ⟨source, (Session.run patience source).1, t⟩
  | called (source : Bytes) (patience : Patience) (t : History.Timing) :
      Records decode (evaluateCall source patience t) ⟨source, (Session.run patience source).1, t⟩

/-- The entry that an arrival is recorded as. -/
def taken? (decode : Api.Decoder) : Arrival → Option History.Entry
  | request r patience t =>
    (Api.postedSource? decode r).map fun source => ⟨source, (Session.run patience source).1, t⟩
  | evaluateCall source patience t => some ⟨source, (Session.run patience source).1, t⟩
  | parseCall _ => none

variable {decode : Api.Decoder}

theorem taken?_eq_some_iff {a : Arrival} {e : History.Entry} :
    a.taken? decode = some e ↔ Records decode a e := by
  constructor
  · intro h
    cases a with
    | request r patience t =>
      obtain ⟨source, hposted, rfl⟩ := Option.map_eq_some_iff.1 h
      obtain ⟨hr, hsize⟩ := Api.postedSource?_eq_some_iff.1 hposted
      exact .posted patience t hr hsize
    | evaluateCall source patience t =>
      cases h
      exact .called source patience t
    | parseCall source => cases h
  · intro h
    cases h with
    | posted patience t hr hsize =>
      exact Option.map_eq_some_iff.2 ⟨_, Api.postedSource?_eq_some_iff.2 ⟨hr, hsize⟩, rfl⟩
    | called => rfl

section

variable {more : List (Http.Route History)} (hmore : ∀ route ∈ more, route.ReadOnly)

include hmore

/-- **An arrival leaves its entry behind, if it has one, and nothing else.** -/
theorem snd_serve (a : Arrival) (h : History) :
    (a.serve decode more h).2
      = (a.taken? decode).elim h fun e => h.record e.source e.run e.timing := by
  cases a with
  | request r patience t =>
    show (Api.serve (Api.routes decode t patience ++ more) r h).2 = _
    cases hposted : Api.postedSource? decode r with
    | none =>
      rw [Api.snd_serve_of_none hmore hposted, taken?, hposted]
      rfl
    | some source =>
      obtain ⟨hr, hsize⟩ := Api.postedSource?_eq_some_iff.1 hposted
      rw [hr.serve_within hsize, taken?, hposted]
      rfl
  | evaluateCall source patience t => rfl
  | parseCall source => rfl

/-- What arrivals leave behind are their entries, in order. -/
theorem serveAll_eq (h : History) (arrivals : List Arrival) :
    serveAll decode more h arrivals = h.recordAll (arrivals.filterMap (taken? decode)) := by
  induction arrivals generalizing h with
  | nil => rfl
  | cons a rest ih =>
    show serveAll decode more (a.serve decode more h).2 rest = _
    rw [ih, snd_serve hmore]
    cases hentry : a.taken? decode with
    | none => rw [List.filterMap_cons_none hentry, Option.elim_none]
    | some e =>
      rw [List.filterMap_cons_some hentry, Option.elim_some]
      rfl

/-- **The history holds what was taken, and nothing else**, whatever bodies are understood. Arrivals
of any kind and number are recorded in the order in which they come, one evaluation for each posted
source that decodes and is short enough and one for each call that evaluates. Each evaluation has
the source of its arrival, the outcomes and the fault of the run of that source, and counts as
failed just if there is a fault. Any other arrival leaves the history exactly as it was. -/
theorem serveAll_records (decode : Api.Decoder) (limit : Int) (arrivals : List Arrival) :
    let entries := arrivals.filterMap (taken? decode)
    let h := serveAll decode more (.empty limit) arrivals
    (∀ a e, a.taken? decode = some e ↔ Records decode a e) ∧
    (h = (History.empty limit).recordAll entries ∧ h.count = entries.length ∧
      h.list = (History.latest (History.bound limit) (History.recorded entries)).reverse) ∧
    (∀ (i : Nat) (e : History.Entry), entries[i]? = some e →
      ∃ made : Evaluation, (History.recorded entries)[i]? = some made ∧
      made.source = e.source ∧ made.outcomes = e.run.outcomes ∧
      made.failure = e.run.fault.map Failure.ofFault ∧
      (made.state = .failed ↔ e.run.fault.isSome = true)) ∧
    ∀ (a : Arrival) (h : History),
      (∀ e, Records decode a e → (a.serve decode more h).2 = h.record e.source e.run e.timing) ∧
      ((∀ e, ¬ Records decode a e) → (a.serve decode more h).2 = h) := by
  intro entries h
  have hserved : h = (History.empty limit).recordAll entries := serveAll_eq hmore _ arrivals
  have hcount : h.count = entries.length := by
    rw [hserved, (History.remembers_recordAll limit entries).count, History.length_recorded]
  refine ⟨fun a e => taken?_eq_some_iff, ⟨hserved, hcount, ?_⟩, fun i e he => ?_, fun a h => ?_⟩
  · rw [hserved]
    exact History.list_recordAll limit entries
  · exact ⟨e.evaluation (i + 1), History.getElem?_recorded he, rfl, rfl, rfl,
      e.state_evaluation (i + 1)⟩
  · constructor
    · intro e he
      rw [snd_serve hmore, taken?_eq_some_iff.2 he]
      rfl
    · intro hnone
      have hentry : a.taken? decode = none := by
        cases hentry : a.taken? decode with
        | none => rfl
        | some e => exact absurd (taken?_eq_some_iff.1 hentry) (hnone e)
      rw [snd_serve hmore, hentry]
      rfl

end

/-- Of six arrivals three are recorded: a posted source, which fails, one in plain text, which the
decoder understands as well as JSON, and a call. A body that is no JSON, a page and a call that
parses are not. -/
theorem serveAll_records_mixed :
    let decode : Api.Decoder := fun r =>
      if r.contentType = utf8 "text/plain" then .ok r.body else Api.jsonOnly r
    let more := Page.routes [] fun _ => 0
    let t : History.Timing := ⟨.zero, ⟨0⟩⟩
    let post := fun body => Http.Request.mk (utf8 "POST") (utf8 "/v1/evaluate")
      (utf8 "application/json") [] (utf8 body)
    let arrivals := [request (post "\x7b\"source\":\"-nil\"\x7d") .endless t,
      request (post "\x7b\"source\":") .endless t,
      request ⟨utf8 "POST", utf8 "/v1/evaluate", utf8 "text/plain", [], utf8 "true"⟩ .endless t,
      request ⟨utf8 "GET", utf8 "/ui", [], [], []⟩ .endless t,
      parseCall (utf8 "nil"), evaluateCall (utf8 "nil") .endless t]
    let h := serveAll decode more (.empty 0) arrivals
    (∀ route ∈ more, route.ReadOnly) ∧ h.count = 3 ∧
      h.list.map (·.source) = [utf8 "nil", utf8 "true", utf8 "-nil"] ∧
      h.list.map (·.state) = [.succeeded, .succeeded, .failed] := by
  intro decode more t post arrivals h
  have hmore := Page.readOnly_routes [] fun _ => 0
  obtain ⟨-, ⟨-, hcount, hlist⟩, -⟩ := serveAll_records hmore decode 0 arrivals
  have hentries : arrivals.filterMap (taken? decode)
      = [⟨utf8 "-nil", Session.runFully (utf8 "-nil"), t⟩,
          ⟨utf8 "true", Session.runFully (utf8 "true"), t⟩,
          ⟨utf8 "nil", Session.runFully (utf8 "nil"), t⟩] := by with_unfolding_all rfl
  rw [hentries] at hcount hlist
  refine ⟨hmore, hcount, ?_, ?_⟩
  · rw [hlist]
    rfl
  · rw [hlist]
    with_unfolding_all rfl

end Arrival

end Reckoner
