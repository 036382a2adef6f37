import Mathlib.Data.List.DropRight
import Reckoner.Proofs.Traffic

/-!
# Reckoner.Proofs.Lookup — an answer can be had again

The response to a posted source is made from the fault of the run; looking the evaluation up makes
another one from what the history keeps of that fault. Both are the same (`response_kept`): the kept
failure has a kind just if the fault has a diagnostic (`Api.tells_next`). This holds for all bodies
that the decoder understands, whatever it is.

An evaluation is found as long as fewer others than the limit are recorded behind it, and no longer
(`History.get_recordAll_behind`). Its name is one segment of a path that stands for itself, so that
a request for the name reaches the history as it is (`Api.Asks.serve_eq`).

Main statement: `response_kept`.
-/

namespace Reckoner

/-! ## How long an evaluation is found -/

namespace History

theorem mem_latest_iff {α : Type} {n : Nat} {l : List α} {a : α} :
    a ∈ latest n l ↔ ∃ i, l.length - n ≤ i ∧ l[i]? = some a := by
  have hstart : l.length - min l.length n = l.length - n := by omega
  rw [latest, hstart, List.mem_iff_getElem?]
  constructor
  · rintro ⟨i, hi⟩
    rw [List.getElem?_drop] at hi
    exact ⟨_, Nat.le_add_right _ i, hi⟩
  · rintro ⟨i, hle, hi⟩
    refine ⟨i - (l.length - n), ?_⟩
    rw [List.getElem?_drop, Nat.add_sub_of_le hle]
    exact hi

/-- Evaluations are named by their places. -/
theorem name_of_getElem?_recorded {entries : List Entry} {i : Nat} {made : Evaluation}
    (h : (recorded entries)[i]? = some made) : made.name = nameOf (i + 1) := by
  rw [recorded, List.getElem?_mapIdx] at h
  obtain ⟨e, -, rfl⟩ := Option.map_eq_some_iff.1 h
  rfl

/-- A name finds the evaluation that has it among the latest ones. -/
theorem get_recordAll_eq_ok_iff {limit : Int} {entries : List Entry} {name : Bytes}
    {e : Evaluation} :
    ((empty limit).recordAll entries).get name = .ok e ↔
      e ∈ latest (bound limit) (recorded entries) ∧ e.name = name := by
  have hwell := ((empty limit).recordAll entries).wellFormed
  rw [Store.get_eq_ok_iff, hwell.get?_eq_some_iff, ← list_eq_kept, list_recordAll, List.mem_reverse]

/-- **An evaluation is found until as many others as the limit are recorded behind it.** -/
theorem get_recordAll_behind (limit : Int) (before after : List Entry) (e : Entry) :
    let h := (empty limit).recordAll (before ++ e :: after)
    (after.length < bound limit →
      h.get (nameOf (before.length + 1)) = .ok (e.evaluation (before.length + 1))) ∧
    (bound limit ≤ after.length → ∀ made, h.get (nameOf (before.length + 1)) ≠ .ok made) := by
  intro h
  have hplace : (before ++ e :: after)[before.length]? = some e := by
    rw [List.getElem?_append_right (Nat.le_refl _), Nat.sub_self]
    rfl
  have hlength : (recorded (before ++ e :: after)).length = before.length + (after.length + 1) := by
    rw [length_recorded, List.length_append, List.length_cons]
  constructor
  · intro hfew
    apply get_recordAll_eq_ok_iff.2
    refine ⟨mem_latest_iff.2 ⟨before.length, ?_, getElem?_recorded hplace⟩, rfl⟩
    rw [hlength]
    omega
  · intro hmany made hfound
    obtain ⟨hmem, hname⟩ := get_recordAll_eq_ok_iff.1 hfound
    obtain ⟨i, hi, hmade⟩ := mem_latest_iff.1 hmem
    -- the name gives the place away, and the latest ones begin behind it
    have hsame : i + 1 = before.length + 1 := by
      apply nameOf_injective
      rw [← hname, name_of_getElem?_recorded hmade]
    rw [hlength] at hi
    omega

end History

/-! ## Names in paths -/

namespace Http

/-- A byte that stands for itself in a path: it does not end the path, and it is no capital. -/
def isPlain (b : UInt8) : Bool :=
  b ≠ byte '?' && b ≠ byte '#' && !(65 ≤ b && b ≤ 90)

theorem pathOf_eq {path : Bytes} (hplain : ∀ b ∈ path, isPlain b = true) : pathOf path = path := by
  apply List.takeWhile_eq_self_iff.2
  intro b hb
  exact (Bool.and_eq_true_iff.1 (hplain b hb)).1

/-- A path is compared as it is if it is plain and has no slash at its end. -/
theorem comparable_eq {path : Bytes} (hplain : ∀ b ∈ path, isPlain b = true)
    (hlast : path.getLast? ≠ some (byte '/')) : comparable path = path := by
  have hlower : Bytes.lower path = path := by
    unfold Bytes.lower
    conv_rhs => rw [← List.map_id path]
    apply List.map_congr_left
    intro b hb
    have hcapital := (Bool.and_eq_true_iff.1 (hplain b hb)).2
    rw [Bool.not_eq_true'] at hcapital
    rw [hcapital]
    rfl
  simp only [comparable, hlower]
  split
  · rfl
  · apply List.rdropWhile_eq_self_iff.2
    intro hne hslash
    apply hlast
    rw [List.getLast?_eq_some_getLast hne]
    exact congrArg some (of_decide_eq_true hslash)

theorem isPlain_of_isDigit {b : UInt8} (h : Bytes.isDigit b = true) : isPlain b = true := by
  have hrange := (Lexeme.isDigit_iff b).1 h
  have hother : ∀ c : UInt8, Bytes.isDigit c = false → decide (b ≠ c) = true := by
    intro c hc
    apply decide_eq_true
    rintro rfl
    cases hc.symm.trans h
  have hcapital : (65 ≤ b && b ≤ 90) = false := by
    rw [Bool.and_eq_false_iff, decide_eq_false_iff_not, UInt8.le_iff_toNat_le]
    simp only [UInt8.reduceToNat]
    omega
  rw [isPlain, hother _ rfl, hother _ rfl, hcapital]
  rfl

end Http

namespace History

theorem isPlain_of_mem_nameOf {n : Nat} {b : UInt8} (h : b ∈ nameOf n) :
    Http.isPlain b = true := by
  rcases List.mem_append.1 h with hword | hdigits
  · have hall : (utf8 "eval-").all Http.isPlain = true := by decide
    exact List.all_eq_true.1 hall b hword
  · exact Http.isPlain_of_isDigit (Number.isDigit_of_mem_padLeft b hdigits)

theorem slash_notMem_nameOf (n : Nat) : byte '/' ∉ nameOf n := by
  intro h
  rcases List.mem_append.1 h with hword | hdigits
  · exact absurd hword (by decide)
  · cases Number.isDigit_of_mem_padLeft _ hdigits

theorem nameOf_ne_nil (n : Nat) : nameOf n ≠ [] :=
  List.append_ne_nil_of_left_ne_nil (by decide) _

end History

namespace Api

open Http

/-- The request asks for the evaluation of this name. -/
structure Asks (q : Request) (name : Bytes) : Prop where
  method : q.method = utf8 "GET"
  path : pathOf q.target = utf8 "/v1/evaluations/" ++ name
  size : q.body.length ≤ maxBodySize

theorem isPlain_of_mem_path (n : Nat) :
    ∀ b ∈ utf8 "/v1/evaluations/" ++ History.nameOf n, isPlain b = true := by
  intro b hb
  rcases List.mem_append.1 hb with hparent | hname
  · have hall : (utf8 "/v1/evaluations/").all isPlain = true := by decide
    exact List.all_eq_true.1 hall b hparent
  · exact History.isPlain_of_mem_nameOf hname

/-- Every evaluation can be asked for. -/
theorem exists_asks (n : Nat) : ∃ q, Asks q (History.nameOf n) :=
  ⟨⟨utf8 "GET", utf8 "/v1/evaluations/" ++ History.nameOf n, [], [], []⟩, rfl,
    pathOf_eq (isPlain_of_mem_path n), Nat.zero_le _⟩

/-- The path of an evaluation is compared as it is. -/
theorem comparable_path (n : Nat) :
    comparable (utf8 "/v1/evaluations/" ++ History.nameOf n)
      = utf8 "/v1/evaluations/" ++ History.nameOf n := by
  apply comparable_eq (isPlain_of_mem_path n)
  rw [List.getLast?_append_of_ne_nil _ (History.nameOf_ne_nil n)]
  intro hslash
  exact History.slash_notMem_nameOf n (List.mem_of_getLast? hslash)

/-- The path of an evaluation has its name as the parameter. -/
theorem match?_path (n : Nat) :
    Pattern.match? (.below "/v1/evaluations") (utf8 "/v1/evaluations/" ++ History.nameOf n)
      = some (History.nameOf n) := by
  have hstart : utf8 "/v1/evaluations" ++ [byte '/'] = utf8 "/v1/evaluations/" := by decide
  have hprefix : (utf8 "/v1/evaluations/").isPrefixOf
      (utf8 "/v1/evaluations/" ++ History.nameOf n) = true :=
    List.isPrefixOf_iff_prefix.2 (List.prefix_append _ _)
  have hempty : (History.nameOf n).isEmpty = false :=
    List.isEmpty_eq_false_iff.2 (History.nameOf_ne_nil n)
  have hslash : (History.nameOf n).contains (byte '/') = false := by
    rw [Bool.eq_false_iff]
    intro hmem
    exact History.slash_notMem_nameOf n (List.contains_iff_mem.1 hmem)
  simp only [Pattern.match?, comparable_path, hstart, if_pos hprefix, List.length_append,
    Nat.add_sub_cancel_left, List.drop_left, List.take_length, hempty, hslash, Bool.or_self]
  rfl

/-- It is the path of nothing else. -/
theorem match?_path_exactly (n : Nat) (fixed : String)
    (hshort : (utf8 fixed).length < (utf8 "/v1/evaluations/").length) :
    Pattern.match? (.exactly fixed) (utf8 "/v1/evaluations/" ++ History.nameOf n) = none := by
  apply if_neg
  intro hsame
  have hlength := congrArg List.length hsame
  rw [comparable_path, List.length_append] at hlength
  omega

/-- **A request for an evaluation looks it up in the history**, whatever other routes there are. -/
theorem Asks.serve_eq {q : Request} {n : Nat} (hq : Asks q (History.nameOf n)) (t : History.Timing)
    (patience : Patience) (decode : Decoder) (more : List (Route History)) (h : History) :
    serve (routes decode t patience ++ more) q h = (getEvaluation (History.nameOf n) h, h) := by
  have hfind : find? q.method (pathOf q.target) (routes decode t patience ++ more)
      = some (⟨"GET", .below "/v1/evaluations", fun name _ h => (getEvaluation name h, h)⟩,
          History.nameOf n) := by
    have hevaluate := match?_path_exactly n "/v1/evaluate" (by decide)
    have hparse := match?_path_exactly n "/v1/parse" (by decide)
    have htokens := match?_path_exactly n "/v1/tokens" (by decide)
    have hlist := match?_path_exactly n "/v1/evaluations" (by decide)
    simp only [hq.path, hq.method, routes, List.cons_append, find?, hevaluate, hparse, htokens,
      hlist, match?_path n, Route.answers, decide_true, Bool.true_or, if_true]
  have hhead : q.method ≠ utf8 "HEAD" := by
    rw [hq.method]
    decide
  simp only [serve, if_neg (Nat.not_lt.2 hq.size), dispatch, hfind, if_neg hhead]

/-- What is answered to a request for an evaluation that others were recorded behind. -/
theorem getEvaluation_behind (limit : Int) (before after : List History.Entry)
    (e : History.Entry) :
    let n := before.length + 1
    let response := getEvaluation (History.nameOf n)
      ((History.empty limit).recordAll (before ++ e :: after))
    (after.length < History.bound limit →
      response = jsonResponse 200 (evaluationJson (e.evaluation n))) ∧
    (History.bound limit ≤ after.length → response.status = 404) := by
  intro n response
  obtain ⟨hfound, hgone⟩ := History.get_recordAll_behind limit before after e
  constructor
  · intro hfew
    simp only [response, n, getEvaluation, hfound hfew]
  · intro hmany
    show (getEvaluation _ _).status = 404
    unfold getEvaluation
    split
    · rfl
    · next made hget => exact absurd hget (hgone hmany made)

/-! ## What a response tells -/

/-- A response with this status and object tells of a run: nothing is wrong, or the source is, where
its first diagnostic says, or else the service is. -/
inductive Tells (run : Run) (j : Json) : Nat → Prop
  | success (hfault : run.fault = none) (herror : j.member? "error" = none) : Tells run j 200
  | diagnosis {f : Fault} {d : Diagnostic} {e : Json} (hfault : run.fault = some f)
      (hfirst : f.first? = some d) (herror : j.member? "error" = some e)
      (hcode : e.member? "code" = some (.ofInt 422))
      (hstatus : e.member? "status" = some (.string (utf8 "INVALID_ARGUMENT")))
      (hkind : e.member? "kind" = some (.string d.kind.name))
      (hline : e.member? "line" = some (.ofInt d.line)) : Tells run j 422
  | failure {f : Fault} {e : Json} (hfault : run.fault = some f) (hfirst : f.first? = none)
      (herror : j.member? "error" = some e)
      (hcode : e.member? "code" = some (.ofInt 500))
      (hstatus : e.member? "status" = some (.string (utf8 "INTERNAL")))
      (hkind : e.member? "kind" = none) (hline : e.member? "line" = none) : Tells run j 500

theorem Tells.error_eq_none_iff {run : Run} {j : Json} {status : Nat} (h : Tells run j status) :
    j.member? "error" = none ↔ status = 200 := by
  cases h with
  | success hfault herror => exact iff_of_true herror rfl
  | diagnosis hfault hfirst herror => exact iff_of_false (by rw [herror]; nofun) (by decide)
  | failure hfault hfirst herror => exact iff_of_false (by rw [herror]; nofun) (by decide)

/-- **The object of an evaluation tells of its run what the status says.** The status goes by the
fault and the object by the failure that is kept of it. -/
theorem tells_next (h : History) (source : Bytes) (patience : Patience) (t : History.Timing) :
    let run := (Session.run patience source).1
    Tells run (evaluationJson (h.next source run t)) (run.fault.elim 200 statusCode) := by
  intro run
  have herror := Fronts.member?_error h source run t
  cases hfault : run.fault with
  | none =>
    rw [hfault] at herror
    exact .success hfault herror
  | some f =>
    rw [hfault, Option.map_some] at herror
    rw [Option.elim_some, statusCode]
    obtain ⟨d, hfirst, hknown⟩ | ⟨-, hinterrupted⟩ := Session.exists_first?_or_interrupted hfault
    · rw [Fronts.failureJson_ofFault hfirst hknown] at herror
      rw [hfirst]
      exact .diagnosis hfault hfirst herror rfl rfl rfl rfl
    · -- an interruption has no diagnostic, and so its failure is kept without a kind
      have hfirst : f.first? = none := by
        rw [hinterrupted]
        rfl
      have hkept : failureJson (.ofFault f)
          = faultJson 500 (utf8 "INTERNAL") none f.message := by
        simp only [Failure.ofFault, hfirst]
        rfl
      rw [hkept] at herror
      rw [hfirst]
      exact .failure hfault hfirst herror rfl rfl rfl rfl

theorem member?_name (e : Evaluation) :
    (evaluationJson e).member? "name" = some (.string e.name) := by
  unfold evaluationJson
  cases e.failure <;> rfl

end Api

/-! ## Asking again -/

namespace Arrival

section

variable {decode : Api.Decoder} {more : List (Http.Route History)}
  (hmore : ∀ route ∈ more, route.ReadOnly)

include hmore

/-- **A response is kept.** A posted source that is taken is answered with an object that tells of
its run what the status of the response says, and that names the evaluation. Whatever arrives after
it, a request for that name is answered with the same object as long as fewer evaluations than the
limit were recorded since, and with status 404 from then on. -/
theorem response_kept {r : Http.Request} {source : Bytes} (hr : Api.Carries decode r source)
    (hsize : source.length ≤ Api.maxSourceSize) (limit : Int) (before : List Arrival)
    (patience : Patience) (t : History.Timing) :
    let run := (Session.run patience source).1
    let served := (request r patience t).serve decode more
      (serveAll decode more (.empty limit) before)
    ∃ status j name, served.1 = .response (Api.jsonResponse status j) ∧
      Api.Tells run j status ∧ (j.member? "error" = none ↔ status = 200) ∧
      j.member? "name" = some (.string name) ∧ (∃ q, Api.Asks q name) ∧
      ∀ (after : List Arrival) (q : Http.Request), Api.Asks q name →
        ∀ (patience' : Patience) (t' : History.Timing),
        let later := (request q patience' t').serve decode more
          (serveAll decode more served.2 after)
        let since := (after.filterMap (taken? decode)).length
        (since < History.bound limit → later.1 = .response (Api.jsonResponse 200 j)) ∧
        (History.bound limit ≤ since →
          ∃ response, later.1 = .response response ∧ response.status = 404) := by
  intro run served
  let front := before.filterMap (taken? decode)
  let e : History.Entry := ⟨source, run, t⟩
  let h := serveAll decode more (.empty limit) before
  have hfront : h = (History.empty limit).recordAll front := serveAll_eq hmore _ before
  have hserved : served = (.response (Api.jsonResponse (run.fault.elim 200 Api.statusCode)
      (Api.evaluationJson (h.next source run t))), h.record source run t) := by
    show (request r patience t).serve decode more h = _
    rw [serve, hr.serve_within hsize]
  have hmade : h.next source run t = e.evaluation (front.length + 1) := by
    rw [hfront, (History.remembers_recordAll limit front).next e, History.length_recorded]
  have htells : Api.Tells run (Api.evaluationJson (e.evaluation (front.length + 1)))
      (run.fault.elim 200 Api.statusCode) := by
    rw [← hmade]
    exact Api.tells_next h source patience t
  rw [hmade] at hserved
  refine ⟨_, _, _, congrArg Prod.fst hserved, htells, htells.error_eq_none_iff,
    Api.member?_name _, Api.exists_asks _, fun after q hq patience' t' => ?_⟩
  intro later since
  -- the later history is that of all entries, with this one in the middle
  have hlater : serveAll decode more served.2 after
      = (History.empty limit).recordAll (front ++ e :: after.filterMap (taken? decode)) := by
    rw [serveAll_eq hmore, hserved, History.recordAll_append, ← hfront]
    rfl
  have hanswer : later.1 = .response (Api.getEvaluation (History.nameOf (front.length + 1))
      ((History.empty limit).recordAll (front ++ e :: after.filterMap (taken? decode)))) := by
    show ((request q patience' t').serve decode more (serveAll decode more served.2 after)).1 = _
    rw [hlater, serve, hq.serve_eq]
  obtain ⟨hfound, hgone⟩ := Api.getEvaluation_behind limit front (after.filterMap (taken? decode)) e
  refine ⟨fun hfew => ?_, fun hmany => ⟨_, hanswer, hgone hmany⟩⟩
  rw [hanswer, hfound hfew]

end

/-- A source that fails is answered with status 422. In a history of one evaluation the answer can be
had again after a page was looked at, and no more after another evaluation. -/
theorem response_kept_failed :
    let decode := Api.jsonOnly
    let more := Page.routes [] fun _ => 0
    let t : History.Timing := ⟨.zero, ⟨0⟩⟩
    let r : Http.Request := ⟨utf8 "POST", utf8 "/v1/evaluate", utf8 "application/json", [],
      utf8 "\x7b\"source\":\"-nil\"\x7d"⟩
    let nil := evaluateCall (utf8 "nil") .endless t
    let page := request ⟨utf8 "GET", utf8 "/ui", [], [], []⟩ .endless t
    let served := (request r .endless t).serve decode more (serveAll decode more (.empty 1) [nil])
    (∀ route ∈ more, route.ReadOnly) ∧ Api.Carries decode r (utf8 "-nil") ∧
    (utf8 "-nil").length ≤ Api.maxSourceSize ∧
    ∃ j name q, Api.Asks q name ∧ served.1 = .response (Api.jsonResponse 422 j) ∧
      ((request q .endless t).serve decode more (serveAll decode more served.2 [page])).1
        = .response (Api.jsonResponse 200 j) ∧
      ∃ response,
        ((request q .endless t).serve decode more (serveAll decode more served.2 [page, nil])).1
          = .response response ∧ response.status = 404 := by
  intro decode more t r nil page served
  have hmore := Page.readOnly_routes [] fun _ => 0
  have hr : Api.Carries decode r (utf8 "-nil") :=
    ⟨rfl, by decide, by with_unfolding_all decide, by with_unfolding_all rfl⟩
  have hsize : (utf8 "-nil").length ≤ Api.maxSourceSize := by with_unfolding_all decide
  obtain ⟨status, j, name, hserved, htells, -, -, ⟨q, hq⟩, hlater⟩ :=
    response_kept hmore hr hsize 1 [nil] .endless t
  have hdiagnosed :
      ((Session.run .endless (utf8 "-nil")).1.fault.bind Fault.first?).isSome = true := by
    with_unfolding_all rfl
  have hstatus : status = 422 := by
    cases htells with
    | success hfault => rw [hfault] at hdiagnosed; cases hdiagnosed
    | diagnosis => rfl
    | failure hfault hfirst =>
      rw [hfault, Option.bind_some, hfirst] at hdiagnosed
      cases hdiagnosed
  subst hstatus
  have hnone : [page].filterMap (taken? decode) = [] := by with_unfolding_all rfl
  have hone : ([page, nil].filterMap (taken? decode)).length = 1 := by with_unfolding_all rfl
  refine ⟨hmore, hr, hsize, j, name, q, hq, hserved, ?_, ?_⟩
  · apply (hlater [page] q hq .endless t).1
    rw [hnone]
    decide
  · apply (hlater [page, nil] q hq .endless t).2
    rw [hone]
    decide

end Arrival

end Reckoner
