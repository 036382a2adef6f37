import Reckoner.History
import Reckoner.Markup
import Reckoner.Text.Excerpt

/-!
# Reckoner.Page — the history as web pages

Four pages: the dashboard with the latest evaluations, the list of all evaluations, one evaluation,
and the page that says that there is no such evaluation. Every page is markup with texts in
between, so what users send cannot change the structure of a page.
-/

namespace Reckoner.Page

open Reckoner.Markup

/-! ## States -/

/-- The style class of the name of a state; unknown ones have none. -/
def stateClass (state : Bytes) : Bytes :=
  if state = EvaluationState.succeeded.name then utf8 "state-succeeded"
  else if state = EvaluationState.failed.name then utf8 "state-failed"
  else []

/-- The icon of the name of a state, as markup. -/
def stateIcon (state : Bytes) : Bytes :=
  if state = EvaluationState.succeeded.name then utf8 "&#10003;"
  else if state = EvaluationState.failed.name then utf8 "&#10007;"
  else utf8 "&#8226;"

/-- The style class of an evaluation. -/
def classPiece (e : Evaluation) : Piece := .markup (stateClass e.state.name)

/-- The icon of an evaluation. -/
def iconPiece (e : Evaluation) : Piece := .markup (stateIcon e.state.name)

/-- A number on a page. -/
def count (n : Nat) : Piece := .text (Number.decimal n)

/-! ## The frame of all pages -/

/-- The part of the site that a page belongs to. -/
inductive Section where
  | dashboard
  | evaluations
  | none
  deriving DecidableEq

/-- The head of all pages. -/
def head : Piece := html (
"<!DOCTYPE html>
<html lang=\"en\">
<head>
<meta charset=\"utf-8\">
<title>golox</title>
<style>
body \x7b font-family: system-ui, sans-serif; margin: 0; color: #1f2328; \x7d
nav \x7b background: #24292f; padding: 0.75rem 1.5rem; \x7d
nav a \x7b color: #d0d7de; margin-right: 1.25rem; text-decoration: none; \x7d
nav a.active, nav .brand \x7b color: #fff; font-weight: 600; \x7d
main \x7b padding: 1.5rem; max-width: 1100px; \x7d
table \x7b border-collapse: collapse; width: 100%; \x7d
th, td \x7b text-align: left; padding: 0.4rem 0.6rem; border-bottom: 1px solid #d0d7de; \x7d
pre \x7b background: #f6f8fa; padding: 0.75rem; overflow-x: auto; \x7d
.state-succeeded \x7b color: #1a7f37; \x7d
.state-failed \x7b color: #cf222e; \x7d
.stats span \x7b margin-right: 1.5rem; \x7d
footer \x7b padding: 1rem 1.5rem; color: #656d76; font-size: 0.85rem; \x7d
</style>
</head>
<body>
<nav>
  <a class=\"brand\" href=\"/ui\">golox</a>
")

/-- The mark of the link to the current part of the site. -/
def activeMark (active : Bool) : Piece := html (if active then " class=\"active\"" else "")

/-- A whole page around its content. -/
def frame (version : Bytes) (current : Section) (content : List Piece) : List Piece :=
  [head, html "  <a href=\"/ui\"", activeMark (current = .dashboard), html ">Dashboard</a>\n",
    html "  <a href=\"/ui/evaluations\"", activeMark (current = .evaluations),
    html ">Evaluations</a>\n</nav>\n<main>\n"]
  ++ content
  ++ [html "\n</main>\n<footer>golox ", .text version, html "</footer>\n</body>\n</html>\n\n\n"]

/-! ## Contents -/

/-- The link to the page of an evaluation. -/
def link (e : Evaluation) : List Piece :=
  [html "    <td><a href=\"/ui/evaluations/", .text e.name, html "\">", .text e.name,
    html "</a></td>\n"]

/-- The cell with the icon of an evaluation. -/
def iconCell (e : Evaluation) : List Piece :=
  [html "\n  <tr>\n    <td class=\"", classPiece e, html "\">", iconPiece e, html "</td>\n"]

/-- What came of an evaluation, in short. -/
def summary (e : Evaluation) : List Piece :=
  match e.failure with
  | some f => [.text f.kind.name]
  | none => [count e.outcomes.length, html " value(s)"]

/-- How many evaluations the dashboard shows. -/
def recentLimit : Nat := 10

/-- How long ago an evaluation was made; a dash if that is not known. -/
def agoText (age : Evaluation → Int) (e : Evaluation) : Bytes :=
  if e.created = .zero then utf8 "-" else Moment.ago (age e)

/-- An evaluation on the dashboard. -/
def recentRow (age : Evaluation → Int) (e : Evaluation) : List Piece :=
  iconCell e ++ link e
  ++ [html "    <td><code>", .text (Text.truncate 60 e.source), html "</code></td>\n    <td>"]
  ++ summary e
  ++ [html "</td>\n    <td>", .text (agoText age e), html "</td>\n  </tr>\n  "]

/-- The content of the dashboard. `age` says how many seconds ago an evaluation was made. -/
def dashboardContent (age : Evaluation → Int) (h : History) : List Piece :=
  let recent := h.list.take recentLimit
  [html "\n<h1>Dashboard</h1>\n<div class=\"stats\">\n  <span>Total: <strong>",
    count h.stats.total,
    html "</strong></span>\n  <span class=\"state-succeeded\">Succeeded: <strong>",
    count h.stats.succeeded,
    html "</strong></span>\n  <span class=\"state-failed\">Failed: <strong>",
    count h.stats.failed,
    html "</strong></span>\n</div>\n<h2>Recent evaluations</h2>\n"]
  ++ (if recent.isEmpty then
      [html ("\n<p>No evaluations yet. POST some source to " ++
        "<code>/v1/evaluate</code>.</p>\n")]
    else
      [html ("\n<table>\n  <tr><th></th><th>Name</th><th>Source</th><th>Result</th>" ++
        "<th>Created</th></tr>\n  ")]
      ++ recent.flatMap (recentRow age) ++ [html "\n</table>\n"])
  ++ [html "\n"]

/-- An evaluation in the list. -/
def listRow (e : Evaluation) : List Piece :=
  iconCell e ++ link e
  ++ [html "    <td class=\"", classPiece e, html "\">", .text e.state.name, html "</td>\n    <td>",
    count (Text.countLines e.source), html "</td>\n    <td>", .text e.took.brief,
    html "</td>\n    <td>", .text e.created.text, html "</td>\n  </tr>\n  "]

/-- The content of the list of evaluations. -/
def listContent (h : History) : List Piece :=
  [html "\n<h1>Evaluations</h1>\n"]
  ++ (if h.list.isEmpty then [html "\n<p>No evaluations yet.</p>\n"]
    else
      [html ("\n<table>\n  <tr><th></th><th>Name</th><th>State</th><th>Lines</th>" ++
        "<th>Duration</th><th>Created</th></tr>\n  ")]
      ++ h.list.flatMap listRow ++ [html "\n</table>\n"])
  ++ [html "\n"]

/-- An outcome on the page of its evaluation. -/
def outcomeRow (o : Outcome) : List Piece :=
  [html "\n  <tr><td><code>", .text o.expression, html "</code></td><td><code>",
    .text o.value.text, html "</code></td><td>", .text o.value.type.name, html "</td></tr>\n  "]

/-- The content of the page of an evaluation. -/
def detailContent (e : Evaluation) : List Piece :=
  [html "\n\n<h1>", .text e.name, html " <span class=\"", classPiece e, html "\">", iconPiece e,
    html " ", .text e.state.name, html "</span></h1>\n<p>Created ", .text e.created.text,
    html " &middot; took ", .text e.took.brief, html "</p>\n<h2>Source</h2>\n<pre>",
    .text e.source, html "</pre>\n"]
  ++ (if e.outcomes.isEmpty then []
    else
      [html ("\n<h2>Results</h2>\n<table>\n  " ++
        "<tr><th>Expression</th><th>Value</th><th>Type</th></tr>\n  ")]
      ++ e.outcomes.flatMap outcomeRow ++ [html "\n</table>\n"])
  ++ [html "\n"]
  ++ (e.failure.elim [] fun f =>
    [html "\n<h2>Error</h2>\n<pre class=\"state-failed\">", .text f.message, html "</pre>\n"])
  ++ [html "\n\n"]

/-- The content of the page that says that there is no such evaluation. -/
def notFoundContent (id : Bytes) : List Piece :=
  [html "\n<h1>Not found</h1>\n<p>",
    .text (utf8 "Evaluation '" ++ id ++ utf8 "' not found"),
    html "</p>\n<p><a href=\"/ui\">Back to dashboard</a></p>\n"]

/-! ## Pages -/

/-- The dashboard. -/
def dashboard (version : Bytes) (age : Evaluation → Int) (h : History) : List Piece :=
  frame version .dashboard (dashboardContent age h)

/-- The list of evaluations. -/
def evaluationList (version : Bytes) (h : History) : List Piece :=
  frame version .evaluations (listContent h)

/-- The page of an evaluation. -/
def detail (version : Bytes) (e : Evaluation) : List Piece :=
  frame version .evaluations (detailContent e)

/-- The page that says that there is no such evaluation. -/
def notFound (version : Bytes) (id : Bytes) : List Piece :=
  frame version .none (notFoundContent id)

/-- Answers with a page. -/
def response (status : Nat) (page : List Piece) : Http.Response where
  status
  contentType := utf8 "text/html; charset=utf-8"
  body := render page

/-- Answers with the page of an evaluation. -/
def detailResponse (version id : Bytes) (h : History) : Http.Response :=
  match h.get? id with
  | some e => response 200 (detail version e)
  | none => response 404 (notFound version id)

/-- Sends the reader of the root to the dashboard. -/
def toDashboard : Http.Response where
  status := 302
  contentType := []
  body := []
  location := some (utf8 "/ui")

/-- The routes of the pages. -/
def routes (version : Bytes) (age : Evaluation → Int) : List (Http.Route History) :=
  [ ⟨"GET", .exactly "/ui", fun _ _ h => (response 200 (dashboard version age h), h)⟩,
    ⟨"GET", .exactly "/ui/evaluations", fun _ _ h => (response 200 (evaluationList version h), h)⟩,
    ⟨"GET", .below "/ui/evaluations", fun id _ h => (detailResponse version id h, h)⟩,
    ⟨"GET", .exactly "/", fun _ _ h => (toDashboard, h)⟩ ]

end Reckoner.Page
