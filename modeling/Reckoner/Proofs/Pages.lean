import Reckoner.Proofs.Escaping
import Reckoner.Proofs.Traffic

/-!
# Reckoner.Proofs.Pages — texts of users cannot change a page

The pages show what users have sent: sources, what became of them, and names that were asked for.
These texts stand in holes of a template. The template and the tags of a page depend on the names of
the evaluations, on which of them failed and on how many values each has, and on nothing else
(`alike_page`).

Main statement: `markup_fixed`.
-/

namespace Reckoner

open Reckoner.Markup

/-! ## Alike histories -/

/-- Two evaluations that differ at most in texts and times. -/
structure Evaluation.Alike (e e' : Evaluation) : Prop where
  name : e.name = e'.name
  outcomes : e.outcomes.length = e'.outcomes.length
  failure : e.failure.isSome = e'.failure.isSome

namespace Evaluation.Alike

variable {e e' : Evaluation}

theorem state_eq (h : e.Alike e') : e.state = e'.state := by
  rw [Evaluation.state, Evaluation.state, h.failure]

/-- Both have failed, or none has. -/
theorem failure_cases (h : e.Alike e') :
    e.failure = none ∧ e'.failure = none ∨ ∃ f f', e.failure = some f ∧ e'.failure = some f' := by
  have hsome := h.failure
  cases hf : e.failure with
  | none =>
    rw [hf, Option.isSome_none] at hsome
    exact .inl ⟨rfl, Option.not_isSome_iff_eq_none.1 (by simp [← hsome])⟩
  | some f =>
    rw [hf, Option.isSome_some] at hsome
    obtain ⟨f', hf'⟩ := Option.isSome_iff_exists.1 hsome.symm
    exact .inr ⟨f, f', rfl, hf'⟩

end Evaluation.Alike

namespace History

/-- Two histories whose evaluations differ at most in texts and times. -/
structure Alike (h h' : History) : Prop where
  limit : h.limit = h'.limit
  count : h.count = h'.count
  list : List.Forall₂ Evaluation.Alike h.list h'.list

/-- Two runs with as many values, of which both have failed or none has. -/
structure Entry.Alike (e e' : Entry) : Prop where
  outcomes : e.run.outcomes.length = e'.run.outcomes.length
  fault : e.run.fault.isSome = e'.run.fault.isSome

namespace Alike

variable {h h' : History}

/-- Recording alike runs keeps histories alike. -/
theorem record {e e' : Entry} (hh : h.Alike h') (he : e.Alike e') :
    (h.record e.source e.run e.timing).Alike (h'.record e'.source e'.run e'.timing) where
  limit := hh.limit
  count := congrArg (· + 1) hh.count
  list := by
    have hname : nameOf (h.count + 1) = nameOf (h'.count + 1) := by rw [hh.count]
    have hfailure : (e.run.fault.map Failure.ofFault).isSome
        = (e'.run.fault.map Failure.ofFault).isSome := by
      rw [Option.isSome_map, Option.isSome_map, he.fault]
    rw [list_record, list_record, hh.limit]
    exact List.forall₂_take _ (.cons ⟨hname, he.outcomes, hfailure⟩ hh.list)

theorem recordAll {entries entries' : List Entry} (hh : h.Alike h')
    (he : List.Forall₂ Entry.Alike entries entries') :
    (h.recordAll entries).Alike (h'.recordAll entries') := by
  induction he generalizing h h' with
  | nil => exact hh
  | cons hfirst _ ih => exact ih (hh.record hfirst)

/-- What is found under a name is alike. -/
theorem get? (hh : h.Alike h') (name : Bytes) :
    h.get? name = none ∧ h'.get? name = none ∨
      ∃ e e', h.get? name = some e ∧ h'.get? name = some e' ∧ e.Alike e' := by
  have hlist := hh.list
  -- the evaluation of the name is at the same place in both
  rw [h.get?_eq, h'.get?_eq]
  generalize h.list = list, h'.list = list' at hlist
  induction hlist with
  | nil => exact .inl ⟨rfl, rfl⟩
  | @cons e e' _ _ he _ ih =>
    by_cases hname : e.name = name
    · refine .inr ⟨e, e', ?_, ?_, he⟩
      · rw [List.find?_cons_of_pos (by simpa using hname)]
      · rw [List.find?_cons_of_pos (by simpa [← he.name] using hname)]
    · rw [List.find?_cons_of_neg (by simpa using hname),
        List.find?_cons_of_neg (by simpa [← he.name] using hname)]
      exact ih

end Alike

end History

namespace Page

variable {e e' : Evaluation}

/-! ## Parts of pages -/

theorem alike_iconCell (h : e.state = e'.state) : Alike (iconCell e) (iconCell e') := by
  unfold iconCell classPiece iconPiece
  rw [h]
  generalize e'.state = state
  apply Alike.same
  cases state <;> decide +kernel

/-- A name may stand in the address of a link, for it does not end the quotes. -/
theorem closed_anchor (name : Bytes) :
    Closed [html "    <td><a href=\"/ui/evaluations/", .text name, html "\">"] := by
  have hopen : tagsFrom .text (utf8 "    <td><a href=\"/ui/evaluations/")
      = ([utf8 "<td>"], .tag (utf8 "<a href=\"/ui/evaluations/").reverse (some (byte '"'))) := by
    decide +kernel
  have hclose : ∀ seen, (tagsFrom (.tag seen (some (byte '"'))) (utf8 "\">")).2 = .text := by
    intro seen
    rfl
  show (tagsFrom .text (utf8 _ ++ (escape name ++ (utf8 "\">" ++ [])))).2 = .text
  have hquote : byte '"' ∈ delimiters := by decide
  have hquoted := (inert_escape name).tagsFrom_quoted hquote
  simp only [List.append_nil, tagsFrom_append, hopen, hquoted]
  exact hclose _

theorem alike_link (h : e.Alike e') : Alike (link e) (link e') := by
  unfold link
  -- a name inside a tag has to be the same, for the tag is compared with all of its bytes
  rw [h.name]
  exact (Alike.same (closed_anchor e'.name)).append (.cons (.text _ _) (.html (by decide)))

theorem alike_summary (h : e.Alike e') : Alike (summary e) (summary e') := by
  unfold summary
  obtain ⟨hf, hf'⟩ | ⟨f, f', hf, hf'⟩ := h.failure_cases
  · rw [hf, hf']
    exact .cons (.text _ _) (.html (by decide))
  · rw [hf, hf']
    exact .text _ _

/-- A row of the dashboard. -/
theorem alike_recentRow (h : e.Alike e') (age age' : Evaluation → Int) :
    Alike (recentRow age e) (recentRow age' e') := by
  have hstart := (alike_iconCell h.state_eq).append (alike_link h)
  refine ((hstart.append ?_).append (alike_summary h)).append ?_
  · exact .hole (by decide) (.html (by decide))
  · exact .hole (by decide) (.html (by decide))

/-- A row of the list. -/
theorem alike_listRow (h : e.Alike e') : Alike (listRow e) (listRow e') := by
  have hstart := (alike_iconCell h.state_eq).append (alike_link h)
  have hclass : Alike [html "    <td class=\"", classPiece e, html "\">"]
      [html "    <td class=\"", classPiece e', html "\">"] := by
    unfold classPiece
    rw [h.state_eq]
    generalize e'.state = state
    apply Alike.same
    cases state <;> decide +kernel
  refine hstart.append (hclass.append (.cons (.text _ _) ?_))
  exact .hole (by decide) (.hole (by decide) (.hole (by decide) (.html (by decide))))

/-- A row of the page of an evaluation; outcomes may be any. -/
theorem alike_outcomeRow (o o' : Outcome) : Alike (outcomeRow o) (outcomeRow o') :=
  .hole (by decide) (.hole (by decide) (.hole (by decide) (.html (by decide))))

/-! ## Contents of pages -/

section
variable {h h' : History}

theorem alike_dashboardContent (hlist : List.Forall₂ Evaluation.Alike h.list h'.list)
    (age age' : Evaluation → Int) :
    Alike (dashboardContent age h) (dashboardContent age' h') := by
  have hrecent : List.Forall₂ (fun e e' => Alike (recentRow age e) (recentRow age' e'))
      (h.list.take recentLimit) (h'.list.take recentLimit) :=
    (List.forall₂_take recentLimit hlist).imp fun _ _ h => alike_recentRow h age age'
  refine .append (.append ?_ (.rows hrecent ?_ ?_ ?_)) (.html (by decide))
  · exact .hole (by decide) (.hole (by decide) (.hole (by decide) (.html (by decide))))
  · decide +kernel
  · decide +kernel
  · decide +kernel

theorem alike_listContent (hlist : List.Forall₂ Evaluation.Alike h.list h'.list) :
    Alike (listContent h) (listContent h') := by
  have hrows := hlist.imp fun _ _ h => alike_listRow h
  refine .append (.append (.html (by decide)) (.rows hrows ?_ ?_ ?_)) (.html (by decide))
  · decide +kernel
  · decide +kernel
  · decide +kernel

end

theorem alike_detailContent (h : e.Alike e') : Alike (detailContent e) (detailContent e') := by
  have hbadge : Alike [html " <span class=\"", classPiece e, html "\">", iconPiece e, html " "]
      [html " <span class=\"", classPiece e', html "\">", iconPiece e', html " "] := by
    unfold classPiece iconPiece
    rw [h.state_eq]
    generalize e'.state = state
    apply Alike.same
    cases state <;> decide +kernel
  have houtcomes : List.Forall₂ (fun o o' => Alike (outcomeRow o) (outcomeRow o'))
      e.outcomes e'.outcomes :=
    List.forall₂_of_length_eq_of_get h.outcomes fun _ _ _ => alike_outcomeRow _ _
  have hfailure : Alike
      (e.failure.elim [] fun f => [html "\n<h2>Error</h2>\n<pre class=\"state-failed\">",
        .text f.message, html "</pre>\n"])
      (e'.failure.elim [] fun f => [html "\n<h2>Error</h2>\n<pre class=\"state-failed\">",
        .text f.message, html "</pre>\n"]) := by
    obtain ⟨hf, hf'⟩ | ⟨f, f', hf, hf'⟩ := h.failure_cases
    · rw [hf, hf']
      exact .nil
    · rw [hf, hf']
      exact .hole (by decide) (.html (by decide))
  refine .append (.append (.append (.append ?_ (.rows houtcomes rfl ?_ ?_)) (.html (by decide)))
    hfailure) (.html (by decide))
  · refine .hole (by decide) (hbadge.append (.cons (.text _ _) ?_))
    exact .hole (by decide) (.hole (by decide) (.hole (by decide) (.html (by decide))))
  · decide +kernel
  · decide +kernel

theorem alike_notFoundContent (id id' : Bytes) :
    Alike (notFoundContent id) (notFoundContent id') :=
  .hole (by decide) (.html (by decide))

set_option maxRecDepth 8000 in
/-- The frame of all pages ends outside tags. -/
theorem alike_frame (version : Bytes) (current : Section) {content content' : List Piece}
    (h : Alike content content') :
    Alike (frame version current content) (frame version current content') := by
  refine .append (.append (.cons (.html (by decide +kernel)) (.same ?_)) h) ?_
  · cases current <;> decide +kernel
  · exact .hole (by decide) (.html (by decide))

/-! ## Pages -/

/-- Where a page is found. -/
inductive Address where
  | dashboard
  | list
  | evaluation (id : Bytes)

/-- The page at an address. -/
def page (version : Bytes) (age : Evaluation → Int) (h : History) : Address → List Piece
  | .dashboard => dashboard version age h
  | .list => evaluationList version h
  | .evaluation id =>
    match h.get? id with
    | some e => detail version e
    | none => notFound version id

/-- The texts of users on a page: what they have sent and what became of it. -/
def userTexts (h : History) : Address → List Bytes
  | .dashboard => (h.list.take recentLimit).map fun e => Text.truncate 60 e.source
  | .list => []
  | .evaluation id =>
    match h.get? id with
    | some e => e.source :: (e.outcomes.flatMap fun o => [o.expression, o.value.text])
        ++ (e.failure.map Failure.message).toList
    | none => [utf8 "Evaluation '" ++ id ++ utf8 "' not found"]

section
variable (version : Bytes) (age age' : Evaluation → Int) {h h' : History}

theorem page_of_get? {id : Bytes} (hget : h.get? id = some e) :
    page version age h (.evaluation id) = detail version e := by
  simp only [page, hget]

theorem page_of_unknown {id : Bytes} (hget : h.get? id = none) :
    page version age h (.evaluation id) = notFound version id := by
  simp only [page, hget]

/-- **Alike histories have alike pages.** -/
theorem alike_page (hh : h.Alike h') (a : Address) :
    Alike (page version age h a) (page version age' h' a) := by
  cases a with
  | dashboard => exact alike_frame version _ (alike_dashboardContent hh.list age age')
  | list => exact alike_frame version _ (alike_listContent hh.list)
  | evaluation id =>
    obtain ⟨hnone, hnone'⟩ | ⟨e, e', hsome, hsome', he⟩ := hh.get? id
    · rw [page_of_unknown _ _ hnone, page_of_unknown _ _ hnone']
      exact alike_frame version _ (alike_notFoundContent id id)
    · rw [page_of_get? _ _ hsome, page_of_get? _ _ hsome']
      exact alike_frame version _ (alike_detailContent he)

/-- A handler answers with a page or sends the reader to the dashboard. -/
theorem exists_page_of_mem {route : Http.Route History} (hroute : route ∈ routes version age)
    (parameter : Bytes) (q : Http.Request) (h : History) :
    (route.handle parameter q h).1 = toDashboard ∨
      ∃ a status, (route.handle parameter q h).1 = response status (page version age h a) := by
  simp only [routes, List.mem_cons, List.not_mem_nil, or_false] at hroute
  obtain rfl | rfl | rfl | rfl := hroute
  · exact .inr ⟨.dashboard, 200, rfl⟩
  · exact .inr ⟨.list, 200, rfl⟩
  · refine .inr ⟨.evaluation parameter, ?_⟩
    simp only [detailResponse, page]
    cases h.get? parameter with
    | some e => exact ⟨200, rfl⟩
    | none => exact ⟨404, rfl⟩
  · exact .inl rfl

/-- A response in HTML is the page at some address. -/
theorem exists_page {q : Http.Request} (hmethod : q.method ≠ utf8 "HEAD")
    (htype : (Http.dispatch (routes version age) q h).1.contentType
      = utf8 "text/html; charset=utf-8") :
    ∃ a, (Http.dispatch (routes version age) q h).1.body = render (page version age h a) := by
  simp only [Http.dispatch, if_neg hmethod] at htype ⊢
  cases hfind : Http.find? q.method (Http.pathOf q.target) (routes version age) with
  | none =>
    have hplain : (Http.noRoute (routes version age) q).contentType
        = utf8 "text/plain; charset=utf-8" := by
      unfold Http.noRoute
      dsimp only
      split
      · rfl
      · split <;> rfl
    simp only [hfind, hplain] at htype
    exact absurd htype (by decide)
  | some found =>
    obtain ⟨route, parameter⟩ := found
    simp only [hfind] at htype ⊢
    obtain ⟨hroute, -⟩ := Http.find?_eq_some hfind
    obtain hback | ⟨a, status, hpage⟩ := exists_page_of_mem version age hroute parameter q h
    · rw [hback] at htype
      exact absurd htype (by decide)
    · rw [hpage]
      exact ⟨a, rfl⟩

theorem text_mem_frame {current : Section} {content : List Piece} {t : Bytes}
    (ht : Piece.text t ∈ content) : t ∈ texts (frame version current content) :=
  mem_texts.2 (List.mem_append_left _ (List.mem_append_right _ ht))

theorem text_mem_detailContent {t : Bytes}
    (ht : t ∈ e.source :: (e.outcomes.flatMap fun o => [o.expression, o.value.text])
      ++ (e.failure.map Failure.message).toList) : Piece.text t ∈ detailContent e := by
  simp only [detailContent, List.mem_append]
  rcases List.mem_append.1 ht with ht | ht
  · rcases List.mem_cons.1 ht with rfl | ht
    · exact .inl (.inl (.inl (.inl (by simp))))
    · obtain ⟨o, ho, ht⟩ := List.mem_flatMap.1 ht
      have hsome : e.outcomes.isEmpty = false :=
        List.isEmpty_eq_false_iff.2 (List.ne_nil_of_mem ho)
      have hrow : Piece.text t ∈ outcomeRow o := by
        simp only [List.mem_cons, List.not_mem_nil, or_false] at ht
        rcases ht with rfl | rfl <;> simp [outcomeRow]
      refine .inl (.inl (.inl (.inr ?_)))
      simp only [hsome, Bool.false_eq_true, if_false, List.mem_append, List.mem_flatMap]
      exact .inl (.inr ⟨o, ho, hrow⟩)
  · obtain ⟨f, hf, rfl⟩ := Option.map_eq_some_iff.1 (Option.mem_toList.1 ht)
    exact .inl (.inr (by simp [hf]))

/-- What users have sent is shown. -/
theorem userTexts_subset (h : History) (a : Address) :
    userTexts h a ⊆ texts (page version age h a) := by
  intro t ht
  cases a with
  | dashboard =>
    -- if there is something to show, the dashboard has a row for it
    obtain ⟨e, he, rfl⟩ := List.mem_map.1 ht
    have hsome : (h.list.take recentLimit).isEmpty = false :=
      List.isEmpty_eq_false_iff.2 (List.ne_nil_of_mem he)
    have hrow : Piece.text (Text.truncate 60 e.source) ∈ recentRow age e := by simp [recentRow]
    apply text_mem_frame
    simp only [dashboardContent, hsome, Bool.false_eq_true, if_false, List.mem_append,
      List.mem_flatMap]
    exact .inl (.inr (.inl (.inr ⟨e, he, hrow⟩)))
  | list => cases ht
  | evaluation id =>
    cases hget : h.get? id with
    | none =>
      simp only [userTexts, hget, List.mem_singleton] at ht
      rw [page_of_unknown _ _ hget]
      exact text_mem_frame _ (by simp [notFoundContent, ht])
    | some e =>
      simp only [userTexts, hget] at ht
      rw [page_of_get? _ _ hget]
      exact text_mem_frame _ (text_mem_detailContent ht)

end

/-- **Texts of users cannot change the markup of a page.** Every response in HTML is the page at an
address. A page is a template with texts in its holes, the texts of users among them; each text is
escaped, so that it has no markup in it and is read as it was sent. If two histories differ at most
in texts and times, as those do that recorded alike runs from the start, then their pages have the
same templates and the same tags; and so have all pages about names that are not known. -/
theorem markup_fixed (version : Bytes) (age age' : Evaluation → Int) :
    (∀ (h : History) (q : Http.Request), q.method ≠ utf8 "HEAD" →
      (Http.dispatch (routes version age) q h).1.contentType = utf8 "text/html; charset=utf-8" →
      ∃ a, (Http.dispatch (routes version age) q h).1.body = render (page version age h a)) ∧
    (∀ (h : History) (a : Address),
      let pieces := page version age h a
      render pieces = fill (template pieces) ((texts pieces).map escape) ∧
      userTexts h a ⊆ texts pieces ∧
      ∀ t ∈ texts pieces, Inert (escape t) ∧ Reads (escape t) (shown t)) ∧
    (∀ (limit : Int) (entries entries' : List History.Entry),
      List.Forall₂ History.Entry.Alike entries entries' →
      ((History.empty limit).recordAll entries).Alike
        ((History.empty limit).recordAll entries')) ∧
    (∀ h h' : History, h.Alike h' → ∀ a,
      template (page version age h a) = template (page version age' h' a) ∧
      tags (render (page version age h a)) = tags (render (page version age' h' a))) ∧
    (∀ (h h' : History) (id id' : Bytes), h.get? id = none → h'.get? id' = none →
      template (page version age h (.evaluation id))
        = template (page version age' h' (.evaluation id')) ∧
      tags (render (page version age h (.evaluation id)))
        = tags (render (page version age' h' (.evaluation id')))) := by
  refine ⟨?_, ?_, ?_, ?_, ?_⟩
  · intro h q hmethod htype
    exact exists_page version age hmethod htype
  · intro h a pieces
    refine ⟨render_eq_fill pieces, userTexts_subset version age h a, ?_⟩
    exact fun t _ => ⟨inert_escape t, reads_escape t⟩
  · intro limit entries entries' he
    exact History.Alike.recordAll ⟨rfl, rfl, .nil⟩ he
  · intro h h' hh a
    have halike := alike_page version age age' hh a
    exact ⟨halike.template, halike.tags⟩
  · intro h h' id id' hget hget'
    rw [page_of_unknown _ _ hget, page_of_unknown _ _ hget']
    have halike := alike_frame version .none (alike_notFoundContent id id')
    exact ⟨halike.template, halike.tags⟩

/-- Two histories of one evaluation, of which one has a tag in its source and in its value; and the
same tag as a name. -/
theorem markup_fixed_tag :
    let entry (source : Bytes) : History.Entry :=
      ⟨source, Session.runFully source, ⟨.zero, ⟨0⟩⟩⟩
    let h := (History.empty 0).recordAll [entry (utf8 "\"<b>\"")]
    let h' := (History.empty 0).recordAll [entry (utf8 "\"x\"")]
    let address := Address.evaluation (History.nameOf 1)
    let pageOf (h : History) (a : Address) := page [] (fun _ => 0) h a
    utf8 "\"<b>\"" ∈ texts (pageOf h address) ∧ utf8 "<b>" ∈ texts (pageOf h address) ∧
      Inert (escape (utf8 "<b>")) ∧
      tags (render (pageOf h address)) = tags (render (pageOf h' address)) ∧
      tags (render (pageOf h (.evaluation (utf8 "<b>"))))
        = tags (render (pageOf h' (.evaluation []))) := by
  intro entry h h' address pageOf
  obtain ⟨-, hshown, hrecorded, htags, hunknown⟩ := markup_fixed [] (fun _ => 0) (fun _ => 0)
  have houtcomes : (Session.runFully (utf8 "\"<b>\"")).outcomes
      = [⟨utf8 "<b>", .string (utf8 "<b>")⟩] := by with_unfolding_all rfl
  have halike : h.Alike h' := by
    refine hrecorded 0 _ _ (.cons ⟨?_, ?_⟩ .nil)
    · with_unfolding_all rfl
    · with_unfolding_all rfl
  have hlist : ∀ source, ((History.empty 0).recordAll [entry source]).list
      = [(entry source).evaluation 1] := fun source => (History.list_recordAll 0 _).trans rfl
  have hget : h.get? (History.nameOf 1) = some ((entry (utf8 "\"<b>\"")).evaluation 1) := by
    rw [h.get?_eq, hlist]
    exact List.find?_cons_of_pos (decide_eq_true rfl)
  have hmissing : ∀ (source name : Bytes), name.head? ≠ some (byte 'e') →
      ((History.empty 0).recordAll [entry source]).get? name = none := by
    intro source name hname
    rw [History.get?_eq, hlist]
    refine List.find?_eq_none.2 fun e he => ?_
    obtain rfl := List.mem_singleton.1 he
    rw [decide_eq_true_eq]
    rintro rfl
    exact hname rfl
  have htexts : userTexts h address ⊆ texts (pageOf h address) := (hshown h address).2.1
  have hsource : utf8 "\"<b>\"" ∈ texts (pageOf h address) := by
    apply htexts
    simp only [userTexts, address, hget]
    exact List.mem_cons_self
  have hvalue : utf8 "<b>" ∈ texts (pageOf h address) := by
    apply htexts
    simp only [userTexts, address, hget, History.Entry.evaluation, entry, houtcomes]
    decide
  refine ⟨hsource, hvalue, ((hshown h address).2.2 _ hvalue).1, (htags h h' halike address).2, ?_⟩
  exact (hunknown h h' _ _ (hmissing _ _ (by decide)) (hmissing _ _ (by decide))).2

end Page

end Reckoner
