import Reckoner.Proofs.Traffic

/-!
# Reckoner.Proofs.Interleaving — what a listing shows while others record

A history is shared, and those who use it take turns: each call on it is one step, and between two
calls of one user others may make theirs. `Calls` says what an arrival does with the history, call by
call; with nobody in between they come to what `Arrival.serve` gives (`Arrival.run_calls`).

A listing takes two calls, one for the evaluations and one for their numbers. So it need not be a
snapshot (`listing_not_consistent`): evaluations that are recorded between the two are counted and
not listed. How far the numbers can be off is said by how many these are (`listing_of_turns`).

Main statement: `listing_of_turns`.
-/

namespace Reckoner

/-! ## Calls on a history -/

/-- What is done with a history until there is an answer; what a call gives decides on the rest. -/
inductive Calls (α : Type) where
  | done (answer : α)
  | record (e : History.Entry) (next : Evaluation → Calls α)
  | get (name : Bytes) (next : Except Fault Evaluation → Calls α)
  | list (next : List Evaluation → Calls α)
  | stats (next : Stats → Calls α)

namespace Calls

variable {α β : Type}

/-- Makes one call. -/
def step : Calls α → History → Calls α × History
  | done answer, h => (done answer, h)
  | record e next, h =>
    (next (h.next e.source e.run e.timing), h.record e.source e.run e.timing)
  | get name next, h => (next (h.get name), h)
  | list next, h => (next h.list, h)
  | stats next, h => (next h.stats, h)

/-- Makes all calls, with nobody in between. -/
def run : Calls α → History → α × History
  | done answer, h => (answer, h)
  | record e next, h =>
    (next (h.next e.source e.run e.timing)).run (h.record e.source e.run e.timing)
  | get name next, h => (next (h.get name)).run h
  | list next, h => (next h.list).run h
  | stats next, h => (next h.stats).run h

/-- The same calls for another answer. -/
def map (f : α → β) : Calls α → Calls β
  | done answer => done (f answer)
  | record e next => record e fun made => (next made).map f
  | get name next => get name fun found => (next found).map f
  | list next => list fun evaluations => (next evaluations).map f
  | stats next => stats fun numbers => (next numbers).map f

theorem run_map (f : α → β) (c : Calls α) (h : History) :
    (c.map f).run h = (f (c.run h).1, (c.run h).2) := by
  induction c generalizing h with
  | done answer => rfl
  | record e next ih => exact ih _ _
  | get name next ih => exact ih _ _
  | list next ih => exact ih _ _
  | stats next ih => exact ih _ _

/-- **One call records at most one entry** and does nothing else to the history. -/
theorem exists_snd_step (c : Calls α) (h : History) :
    ∃ entries : List History.Entry, entries.length ≤ 1 ∧ (c.step h).2 = h.recordAll entries := by
  cases c with
  | record e next => exact ⟨[e], Nat.le_refl 1, rfl⟩
  | _ => exact ⟨[], Nat.zero_le 1, rfl⟩

end Calls

/-! ## The calls of requests -/

namespace Api

open Http

/-- A route whose handler is told by its calls. -/
structure Endpoint where
  method : String
  pattern : Pattern
  calls : Bytes → Request → Calls Response

/-- The route that makes all calls at once. -/
def Endpoint.route (e : Endpoint) : Route History where
  method := e.method
  pattern := e.pattern
  handle parameter r := (e.calls parameter r).run

/-- Evaluating makes one call, unless the request is refused. -/
def evaluateCalls (decode : Decoder) (patience : Patience) (t : History.Timing) (r : Request) :
    Calls Response :=
  match readSource decode r with
  | .error response => .done response
  | .ok source =>
    let run := (Session.run patience source).1
    .record ⟨source, run, t⟩ fun made =>
      .done (jsonResponse (run.fault.elim 200 statusCode) (evaluationJson made))

/-- Looking up makes one call. -/
def getCalls (name : Bytes) : Calls Response :=
  .get name fun
    | .error f => .done (faultResponse 404 (utf8 "NOT_FOUND") f)
    | .ok made => .done (jsonResponse 200 (evaluationJson made))

/-- Listing makes two calls. -/
def listCalls : Calls Response :=
  .list fun evaluations => .stats fun numbers => .done (listing evaluations numbers)

/-- The routes of the interpreter, by their calls. -/
def endpoints (decode : Decoder) (t : History.Timing) (patience : Patience) : List Endpoint :=
  [ ⟨"POST", .exactly "/v1/evaluate", fun _ r => evaluateCalls decode patience t r⟩,
    ⟨"POST", .exactly "/v1/parse", fun _ r => .done (parse decode r)⟩,
    ⟨"POST", .exactly "/v1/tokens", fun _ r => .done (tokens decode r)⟩,
    ⟨"GET", .exactly "/v1/evaluations", fun _ _ => listCalls⟩,
    ⟨"GET", .below "/v1/evaluations", fun name _ => getCalls name⟩ ]

theorem run_evaluateCalls (decode : Decoder) (patience : Patience) (t : History.Timing)
    (r : Request) (h : History) :
    (evaluateCalls decode patience t r).run h = evaluate decode patience t r h := by
  unfold evaluateCalls evaluate
  cases readSource decode r <;> rfl

theorem run_getCalls (name : Bytes) (h : History) :
    (getCalls name).run h = (getEvaluation name h, h) := by
  unfold getCalls getEvaluation
  simp only [Calls.run]
  cases h.get name <;> rfl

variable (decode : Decoder)

/-- The calls of the routes come to what the routes do. -/
theorem map_route_endpoints (t : History.Timing) (patience : Patience) :
    (endpoints decode t patience).map Endpoint.route = routes decode t patience := by
  have hevaluate : (fun (_ : Bytes) r => (evaluateCalls decode patience t r).run)
      = fun _ r h => evaluate decode patience t r h := by
    funext _ r h
    exact run_evaluateCalls decode patience t r h
  have hget : (fun name (_ : Request) => (getCalls name).run)
      = fun name _ h => (getEvaluation name h, h) := by
    funext name _ h
    exact run_getCalls name h
  simp only [endpoints, List.map_cons, List.map_nil, Endpoint.route, hevaluate, hget]
  rfl

/-- The first endpoint for a method and a path, with the parameter. -/
def findEndpoint? (method path : Bytes) : List Endpoint → Option (Endpoint × Bytes)
  | [] => none
  | e :: rest =>
    match e.pattern.match? path with
    | some parameter =>
      if e.route.answers method then some (e, parameter) else findEndpoint? method path rest
    | none => findEndpoint? method path rest

theorem find?_map_route (method path : Bytes) (endpoints : List Endpoint) :
    find? method path (endpoints.map Endpoint.route)
      = (findEndpoint? method path endpoints).map fun found => (found.1.route, found.2) := by
  induction endpoints with
  | nil => rfl
  | cons e rest ih =>
    have hpattern : e.route.pattern = e.pattern := rfl
    simp only [List.map_cons, find?, findEndpoint?, hpattern]
    cases e.pattern.match? path with
    | none => exact ih
    | some parameter =>
      dsimp only
      split
      · rfl
      · exact ih

/-- The calls of a request. -/
def calls (t : History.Timing) (patience : Patience) (r : Request) : Calls Response :=
  if maxBodySize < r.body.length then .done tooLarge
  else
    let answer :=
      match findEndpoint? r.method (pathOf r.target) (endpoints decode t patience) with
      | some (e, parameter) => e.calls parameter r
      | none => .done (noRoute (routes decode t patience) r)
    if r.method = utf8 "HEAD" then answer.map fun response => { response with body := [] }
    else answer

theorem run_calls (t : History.Timing) (patience : Patience) (r : Request) (h : History) :
    (calls decode t patience r).run h = serve (routes decode t patience) r h := by
  have hfind := find?_map_route r.method (pathOf r.target) (endpoints decode t patience)
  rw [map_route_endpoints] at hfind
  unfold calls serve dispatch
  rw [hfind]
  split
  · rfl
  · cases findEndpoint? r.method (pathOf r.target) (endpoints decode t patience) with
    | none =>
      dsimp only [Option.map_none]
      split <;> rfl
    | some found =>
      dsimp only [Option.map_some]
      split
      · exact Calls.run_map _ _ h
      · rfl

/-- The request asks for the history. -/
structure AsksList (q : Request) : Prop where
  method : q.method = utf8 "GET"
  path : comparable (pathOf q.target) = utf8 "/v1/evaluations"
  size : q.body.length ≤ maxBodySize

theorem AsksList.calls_eq {q : Request} (hq : AsksList q) (t : History.Timing)
    (patience : Patience) : calls decode t patience q = listCalls := by
  have hevaluate : utf8 "/v1/evaluations" ≠ utf8 "/v1/evaluate" := by decide
  have hparse : utf8 "/v1/evaluations" ≠ utf8 "/v1/parse" := by decide
  have htokens : utf8 "/v1/evaluations" ≠ utf8 "/v1/tokens" := by decide
  have hhead : utf8 "GET" ≠ utf8 "HEAD" := by decide
  simp only [calls, if_neg (Nat.not_lt.2 hq.size), endpoints, findEndpoint?, Pattern.match?, hq.path,
    hq.method, if_neg hevaluate, if_neg hparse, if_neg htokens, if_neg hhead, if_true,
    Endpoint.route, Route.answers, decide_true, Bool.true_or]

end Api

/-- The calls of an arrival. -/
def Arrival.calls (decode : Api.Decoder) : Arrival → Calls Reply
  | request r patience t => (Api.calls decode t patience r).map .response
  | evaluateCall source patience t =>
    let run := (Session.run patience source).1
    .record ⟨source, run, t⟩ fun made =>
      .done (.evaluation
        (match run.fault with
        | some f => .error (Rpc.Status.ofFault f)
        | none =>
          let m := Rpc.EvaluationMessage.ofEvaluation made
          if m.results.all Rpc.ResultMessage.valid then .ok m
          else .error (Rpc.unencodable "evaluation")))
  | parseCall source => .done (.trees (Rpc.parse source))

/-- With nobody in between, the calls of an arrival come to its answer. -/
theorem Arrival.run_calls (decode : Api.Decoder) (a : Arrival) (h : History) :
    (a.calls decode).run h = a.serve decode [] h := by
  cases a with
  | request r patience t =>
    rw [calls, Calls.run_map, Api.run_calls, serve, List.append_nil]
  | evaluateCall source patience t => rfl
  | parseCall source => rfl

/-! ## Taking turns -/

/-- A history and those who use it, each with the calls that are still to be made. -/
structure Shared where
  history : History
  tasks : List (Calls Reply)

namespace Shared

/-- One task makes its next call. -/
def turn (s : Shared) (i : Nat) : Shared :=
  match s.tasks[i]? with
  | none => s
  | some c => ⟨(c.step s.history).2, s.tasks.set i (c.step s.history).1⟩

/-- Tasks make calls in the order of a schedule. -/
def play (s : Shared) (schedule : List Nat) : Shared := schedule.foldl turn s

theorem play_append (s : Shared) (front back : List Nat) :
    s.play (front ++ back) = (s.play front).play back :=
  List.foldl_append

theorem turn_of_some {s : Shared} {i : Nat} {c : Calls Reply} (h : s.tasks[i]? = some c) :
    s.turn i = ⟨(c.step s.history).2, s.tasks.set i (c.step s.history).1⟩ := by
  simp only [turn, h]

theorem getElem?_turn_self {s : Shared} {i : Nat} {c : Calls Reply} (h : s.tasks[i]? = some c) :
    (s.turn i).tasks[i]? = some (c.step s.history).1 := by
  obtain ⟨hi, -⟩ := List.getElem?_eq_some_iff.1 h
  rw [turn_of_some h]
  exact List.getElem?_set_self hi

theorem getElem?_turn_ne (s : Shared) {i j : Nat} (h : j ≠ i) :
    (s.turn j).tasks[i]? = s.tasks[i]? := by
  unfold turn
  split
  · rfl
  · exact List.getElem?_set_ne h

/-- A task does not change while others have their turns. -/
theorem getElem?_play_of_notMem (s : Shared) {i : Nat} {schedule : List Nat} (h : i ∉ schedule) :
    (s.play schedule).tasks[i]? = s.tasks[i]? := by
  induction schedule generalizing s with
  | nil => rfl
  | cons j rest ih =>
    obtain ⟨hj, hrest⟩ := List.ne_and_not_mem_of_not_mem_cons h
    calc ((s.turn j).play rest).tasks[i]? = (s.turn j).tasks[i]? := ih (s.turn j) hrest
      _ = s.tasks[i]? := s.getElem?_turn_ne hj.symm

/-- A task that has its answer keeps it. -/
theorem getElem?_play_done {s : Shared} {i : Nat} {reply : Reply}
    (h : s.tasks[i]? = some (.done reply)) (schedule : List Nat) :
    (s.play schedule).tasks[i]? = some (.done reply) := by
  induction schedule generalizing s with
  | nil => exact h
  | cons j rest ih =>
    apply ih (s := s.turn j)
    by_cases hj : j = i
    · rw [hj]
      exact getElem?_turn_self h
    · rw [s.getElem?_turn_ne hj, h]

/-- **A turn records at most one entry**, whoever has it. -/
theorem exists_history_turn (s : Shared) (i : Nat) :
    ∃ entries : List History.Entry, entries.length ≤ 1 ∧
      (s.turn i).history = s.history.recordAll entries := by
  unfold turn
  split
  · exact ⟨[], Nat.zero_le 1, rfl⟩
  · next c _ => exact c.exists_snd_step s.history

/-- So turns record at most as many entries as there are turns. -/
theorem exists_history_play (s : Shared) (schedule : List Nat) :
    ∃ entries : List History.Entry, entries.length ≤ schedule.length ∧
      (s.play schedule).history = s.history.recordAll entries := by
  induction schedule generalizing s with
  | nil => exact ⟨[], Nat.le_refl 0, rfl⟩
  | cons i rest ih =>
    obtain ⟨first, hfirst, hturn⟩ := s.exists_history_turn i
    obtain ⟨others, hothers, hplay⟩ := ih (s.turn i)
    refine ⟨first ++ others, ?_, ?_⟩
    · rw [List.length_append, List.length_cons]
      omega
    · show ((s.turn i).play rest).history = _
      rw [hplay, hturn, History.recordAll_append]

/-- A task that has calls to make and has its answer in the end has had a turn. Until the first one
it waits with its first call, and behind it all goes on from there. -/
theorem exists_first_turn {s : Shared} {i : Nat} {c : Calls Reply} {reply : Reply}
    {schedule : List Nat} (htask : s.tasks[i]? = some c) (hcalls : c ≠ .done reply)
    (hend : (s.play schedule).tasks[i]? = some (.done reply)) :
    ∃ front back, schedule = front ++ i :: back ∧ i ∉ front ∧
      let next := (s.play front).turn i
      (∀ more, s.play (front ++ i :: more) = next.play more) ∧
      next.history = (c.step (s.play front).history).2 ∧
      next.tasks[i]? = some (c.step (s.play front).history).1 ∧
      (next.play back).tasks[i]? = some (.done reply) := by
  have hmem : i ∈ schedule := by
    by_contra hnot
    rw [s.getElem?_play_of_notMem hnot, htask] at hend
    exact hcalls (Option.some.inj hend)
  obtain ⟨front, back, hsplit, hfront⟩ := List.eq_append_cons_of_mem hmem
  have hwaits : (s.play front).tasks[i]? = some c := by
    rw [s.getElem?_play_of_notMem hfront, htask]
  have hnext := fun more => s.play_append front (i :: more)
  refine ⟨front, back, hsplit, hfront, hnext, ?_, getElem?_turn_self hwaits, ?_⟩
  · rw [turn_of_some hwaits]
  · rw [hsplit, hnext] at hend
    exact hend

/-- **A task that nobody interrupts makes all its calls.** -/
theorem exists_play_replicate (c : Calls Reply) (h : History) :
    ∃ n, (Shared.mk h [c]).play (List.replicate n 0) = ⟨(c.run h).2, [.done (c.run h).1]⟩ := by
  -- one turn per call
  have hcons : ∀ {c : Calls Reply} {h : History}, (∃ n, (Shared.mk (c.step h).2 [(c.step h).1]).play
      (List.replicate n 0) = ⟨(c.run h).2, [.done (c.run h).1]⟩) →
      ∃ n, (Shared.mk h [c]).play (List.replicate n 0) = ⟨(c.run h).2, [.done (c.run h).1]⟩ := by
    rintro c h ⟨n, hn⟩
    exact ⟨n + 1, hn⟩
  induction c generalizing h with
  | done answer => exact ⟨0, rfl⟩
  | record e next ih => exact hcons (ih _ _)
  | get name next ih => exact hcons (ih _ _)
  | list next ih => exact hcons (ih _ _)
  | stats next ih => exact hcons (ih _ _)

end Shared

/-! ## Numbers that lag behind -/

/-- Two numbers are at most `k` apart. -/
def Within (k m n : Nat) : Prop := m ≤ n + k ∧ n ≤ m + k

namespace History

/-- A record puts one evaluation in and pushes at most one out. -/
theorem countP_record (p : Evaluation → Bool) (h : History) (source : Bytes) (run : Run)
    (t : Timing) : Within 1 ((h.record source run t).list.countP p) (h.list.countP p) := by
  let all := h.next source run t :: h.list
  have hlist : h.list.length ≤ h.limit := h.length_list_le
  have hsplit : all.countP p = (all.take h.limit).countP p + (all.drop h.limit).countP p := by
    rw [← List.countP_append, List.take_append_drop]
  have hout : (all.drop h.limit).countP p ≤ 1 := by
    calc (all.drop h.limit).countP p ≤ (all.drop h.limit).length := List.countP_le_length
      _ = h.list.length + 1 - h.limit := by rw [List.length_drop, List.length_cons]
      _ ≤ 1 := by omega
  have hin : all.countP p = h.list.countP p + if p (h.next source run t) then 1 else 0 :=
    List.countP_cons
  rw [list_record]
  show Within 1 ((all.take h.limit).countP p) (h.list.countP p)
  unfold Within
  split at hin <;> omega

/-- Records put in and push out at most as many as they are. -/
theorem countP_recordAll (p : Evaluation → Bool) (h : History) (entries : List Entry) :
    Within entries.length ((h.recordAll entries).list.countP p) (h.list.countP p) := by
  induction entries generalizing h with
  | nil => exact ⟨Nat.le_refl _, Nat.le_refl _⟩
  | cons e rest ih =>
    obtain ⟨hfirst, hfirst'⟩ := countP_record p h e.source e.run e.timing
    obtain ⟨hrest, hrest'⟩ := ih (h.record e.source e.run e.timing)
    show Within (rest.length + 1)
      (((h.record e.source e.run e.timing).recordAll rest).list.countP p) _
    unfold Within
    omega

theorem length_list_recordAll (limit : Int) (entries : List Entry) :
    ((empty limit).recordAll entries).list.length = min (bound limit) entries.length := by
  rw [list_recordAll, reverse_latest, List.length_take, List.length_reverse, length_recorded]

theorem count_recordAll (h : History) (entries : List Entry) :
    (h.recordAll entries).count = h.count + entries.length := by
  induction entries generalizing h with
  | nil => rfl
  | cons e rest ih =>
    show ((h.record e.source e.run e.timing).recordAll rest).count = _
    rw [ih, List.length_cons]
    show h.count + 1 + rest.length = _
    omega

end History

/-! ## Listings -/

/-- A listing whose numbers are those of the evaluations that it lists. -/
def Api.Consistent (response : Http.Response) : Prop :=
  ∃ evaluations, response = Api.listing evaluations (.ofList evaluations)

/-- An object begins with its first member. -/
theorem Json.text_object_cons (key : Bytes) (value : Json) (members : List (Bytes × Json)) :
    ∃ rest, (Json.object ((key, value) :: members)).text
      = byte '\x7b' :: (quoted key ++ byte ':' :: (value.text ++ rest)) := by
  refine ⟨(members.map fun member => quoted member.1 ++ byte ':' :: member.2.text).flatMap
    ([byte ','] ++ ·) ++ [byte '\x7d'], ?_⟩
  rw [text, List.map_cons, Bytes.join]
  simp only [List.append_assoc, List.cons_append]

/-- Where the evaluations begin in the text of a listing. -/
theorem Api.body_listing (evaluations : List Evaluation) (numbers : Stats) :
    ∃ rest, (Api.listing evaluations numbers).body = utf8 "\x7b\"evaluations\":[" ++
      (Bytes.join [byte ','] (evaluations.map fun e => (Api.evaluationJson e).text)
        ++ byte ']' :: rest) := by
  have hkey : Json.quoted (utf8 "evaluations") = utf8 "\"evaluations\"" := by
    with_unfolding_all rfl
  obtain ⟨rest, hrest⟩ := Json.text_object_cons (utf8 "evaluations")
    (.array (evaluations.map evaluationJson))
    [(utf8 "failed", .ofInt numbers.failed), (utf8 "succeeded", .ofInt numbers.succeeded),
      (utf8 "total", .ofInt numbers.total)]
  refine ⟨rest, ?_⟩
  rw [hkey, Json.text, List.map_map, List.cons_append, List.cons_append,
    List.append_assoc] at hrest
  exact hrest

/-- A text that lists nothing is not the text of a listing of something. -/
theorem Api.eq_nil_of_listing_nil {evaluations : List Evaluation} {numbers numbers' : Stats}
    (h : Api.listing [] numbers = Api.listing evaluations numbers') : evaluations = [] := by
  cases evaluations with
  | nil => rfl
  | cons e more =>
    obtain ⟨rest, hrest⟩ := Api.body_listing [] numbers
    obtain ⟨rest', hrest'⟩ := Api.body_listing (e :: more) numbers'
    rw [h, hrest'] at hrest
    have hbehind := List.append_cancel_left hrest
    -- a bracket closes the empty list where an object would be opened
    simp only [List.map_cons, Bytes.join, List.map_nil, List.nil_append, Api.evaluationJson,
      Json.text, List.cons_append, List.cons.injEq] at hbehind
    exact absurd hbehind.1 (by decide)

namespace Shared

/-- The numbers of a listing go with its evaluations, up to what was recorded in between. -/
structure Lags (limit : Int) (seen counted : History) (between : List History.Entry) : Prop where
  recorded : counted = seen.recordAll between
  count : counted.count = seen.count + between.length
  total : counted.stats.total = min (History.bound limit) (seen.list.length + between.length)
  succeeded : Within between.length counted.stats.succeeded (Stats.ofList seen.list).succeeded
  failed : Within between.length counted.stats.failed (Stats.ofList seen.list).failed
  sum : counted.stats.succeeded + counted.stats.failed = counted.stats.total

/-- Recording on makes numbers lag. -/
theorem lags_recordAll (limit : Int) (earlier between : List History.Entry) :
    Lags limit ((History.empty limit).recordAll earlier)
      (((History.empty limit).recordAll earlier).recordAll between) between := by
  have hseen := History.length_list_recordAll limit earlier
  have hcounted := History.length_list_recordAll limit (earlier ++ between)
  rw [History.recordAll_append, List.length_append] at hcounted
  refine ⟨rfl, History.count_recordAll _ _, ?_, ?_, ?_, ?_⟩
  · rw [History.stats_eq]
    show (((History.empty limit).recordAll earlier).recordAll between).list.length = _
    rw [hcounted, hseen]
    omega
  · rw [History.stats_eq]
    exact History.countP_recordAll _ _ between
  · rw [History.stats_eq]
    exact History.countP_recordAll _ _ between
  · rw [History.stats_eq]
    exact Stats.succeeded_add_failed _

/-- **What a listing shows.** Whoever else uses the history, and in whatever order they take turns, a
request for the history is answered with the evaluations of one moment and the numbers of a later
one. The numbers differ from those of the listed evaluations by no more than was recorded between the
two, and the listing is consistent if that was nothing. An arrival that has the history for itself is
answered as if it came alone. -/
theorem listing_of_turns {decode : Api.Decoder} (limit : Int) {tasks : List (Calls Reply)} {i : Nat}
    {q : Http.Request} {patience : Patience} {t : History.Timing} (hq : Api.AsksList q)
    (htask : tasks[i]? = some ((Arrival.request q patience t).calls decode)) {schedule : List Nat}
    {reply : Reply}
    (hend : ((Shared.mk (.empty limit) tasks).play schedule).tasks[i]? = some (.done reply)) :
    let start : Shared := ⟨.empty limit, tasks⟩
    (∃ front middle back between, schedule = front ++ i :: (middle ++ i :: back) ∧
      i ∉ front ∧ i ∉ middle ∧
      let seen := (start.play front).history
      let counted := (start.play (front ++ i :: middle)).history
      reply = .response (Api.listing seen.list counted.stats) ∧
      between.length ≤ middle.length ∧ Lags limit seen counted between ∧
      (counted.count = seen.count → Api.Consistent (Api.listing seen.list counted.stats))) ∧
    ∀ (a : Arrival) (h : History), ∃ n, (Shared.mk h [a.calls decode]).play (List.replicate n 0)
      = ⟨(a.serve decode [] h).2, [.done (a.serve decode [] h).1]⟩ := by
  intro start
  refine ⟨?_, fun a h => ?_⟩
  swap
  · rw [← Arrival.run_calls]
    exact exists_play_replicate (a.calls decode) h
  have hcalls : (Arrival.request q patience t).calls decode = Calls.list fun evaluations =>
      .stats fun numbers => .done (.response (Api.listing evaluations numbers)) := by
    rw [Arrival.calls, hq.calls_eq]
    rfl
  rw [hcalls] at htask
  -- the first turn lists, and the second counts
  obtain ⟨front, rest, rfl, hfront, hplayed, hquiet, hlisted, hend⟩ :=
    exists_first_turn (s := start) htask nofun hend
  obtain ⟨middle, back, rfl, hmiddle, -, -, hcounted, hend⟩ :=
    exists_first_turn hlisted nofun hend
  rw [getElem?_play_done hcounted back] at hend
  cases hend
  obtain ⟨earlier, -, hearlier⟩ := start.exists_history_play front
  obtain ⟨between, hbetween, hmade⟩ := ((start.play front).turn i).exists_history_play middle
  have hseen : ((start.play front).turn i).history = (start.play front).history := hquiet
  rw [hseen, ← hplayed] at hmade
  have hlags : Lags limit (start.play front).history (start.play (front ++ i :: middle)).history
      between := by
    rw [hmade, hearlier]
    exact lags_recordAll limit earlier between
  refine ⟨front, middle, back, between, rfl, hfront, hmiddle, ?_, hbetween, hlags, fun hcount => ?_⟩
  · rw [hplayed]
  have hnone : between = [] := by
    apply List.eq_nil_of_length_eq_zero
    have := hlags.count
    omega
  rw [hmade, hnone]
  exact ⟨_, congrArg _ (History.stats_eq _)⟩

/-- Two arrivals share a history: while one lists it, the other records an evaluation. -/
theorem play_list_record_stats (decode : Api.Decoder) :
    let t : History.Timing := ⟨.zero, ⟨0⟩⟩
    let q : Http.Request := ⟨utf8 "GET", utf8 "/v1/evaluations", [], [], []⟩
    let arrivals := [Arrival.request q .endless t, .evaluateCall (utf8 "nil") .endless t]
    ((Shared.mk (.empty 0) (arrivals.map (Arrival.calls decode))).play [0, 1, 0]).tasks[0]?
      = some (.done (.response (Api.listing [] ⟨1, 1, 0⟩))) := by
  with_unfolding_all rfl

/-- **A listing need not be a snapshot**, however bodies are decoded: the evaluation that is recorded
while the history is being listed is counted, and it is not in the list. -/
theorem listing_not_consistent :
    ¬ ∃ decode : Api.Decoder, ∀ (limit : Int) (arrivals : List Arrival) (schedule : List Nat)
        (i : Nat) (q : Http.Request) (patience : Patience) (t : History.Timing)
        (response : Http.Response),
      Api.AsksList q → arrivals[i]? = some (.request q patience t) →
      ((Shared.mk (.empty limit) (arrivals.map (Arrival.calls decode))).play schedule).tasks[i]?
        = some (.done (.response response)) →
      Api.Consistent response := by
  rintro ⟨decode, h⟩
  have hq : Api.AsksList ⟨utf8 "GET", utf8 "/v1/evaluations", [], [], []⟩ :=
    ⟨rfl, by decide, Nat.zero_le _⟩
  obtain ⟨evaluations, hsame⟩ := h 0 _ _ 0 _ _ _ _ hq rfl (play_list_record_stats decode)
  have hnone := Api.eq_nil_of_listing_nil hsame
  rw [hnone] at hsame
  have hbodies := congrArg (·.body) hsame
  revert hbodies
  with_unfolding_all decide

/-- In a history that an evaluation is recorded in while it is listed, one more is counted than is
listed. -/
theorem listing_of_turns_between :
    let t : History.Timing := ⟨.zero, ⟨0⟩⟩
    let q : Http.Request := ⟨utf8 "GET", utf8 "/v1/evaluations", [], [], []⟩
    let tasks := [Arrival.request q .endless t, .evaluateCall (utf8 "nil") .endless t].map
      (Arrival.calls Api.jsonOnly)
    let response := Api.listing [] ⟨1, 1, 0⟩
    Api.AsksList q ∧ tasks[0]? = some ((Arrival.request q .endless t).calls Api.jsonOnly) ∧
    ((Shared.mk (.empty 0) tasks).play [0, 1, 0]).tasks[0]? = some (.done (.response response)) ∧
    ∃ seen counted between, Lags 0 seen counted between ∧ seen.list = [] ∧
      response = Api.listing seen.list counted.stats := by
  intro t q tasks response
  have hq : Api.AsksList q := ⟨rfl, by decide, Nat.zero_le _⟩
  have htask : tasks[0]? = some ((Arrival.request q .endless t).calls Api.jsonOnly) := rfl
  obtain ⟨⟨front, middle, back, between, -, -, -, hreply, -, hlags, -⟩, -⟩ :=
    listing_of_turns 0 hq htask (play_list_record_stats Api.jsonOnly)
  have hresponse := Reply.response.inj hreply
  exact ⟨hq, htask, play_list_record_stats Api.jsonOnly, _, _, between, hlags,
    Api.eq_nil_of_listing_nil hresponse, hresponse⟩

end Shared

end Reckoner
