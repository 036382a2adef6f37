import Reckoner.Text.Utf8

/-!
# Reckoner.Http — requests, responses and routes

A route is a method, a pattern of paths and a handler over some state. Paths are compared without
regard to case, and slashes at their end do not count. The first route that fits answers; routes
for reading also answer requests for the head alone, whose body is then left out.
-/

namespace Reckoner.Http

/-- A request. -/
structure Request where
  method : Bytes
  /-- The path, perhaps with a query behind it. -/
  target : Bytes
  contentType : Bytes := []
  /-- How the body is encoded for the way; empty if it is sent as it is. -/
  contentEncoding : Bytes := []
  body : Bytes := []

/-- A response. -/
structure Response where
  status : Nat
  contentType : Bytes
  body : Bytes
  location : Option Bytes := none

/-- What paths a route is for. -/
inductive Pattern where
  /-- This path. -/
  | exactly (path : String)
  /-- One segment behind this path, which is the parameter. -/
  | below (path : String)

/-- A route; the handler gets the parameter, which is empty if there is none. -/
structure Route (σ : Type) where
  method : String
  pattern : Pattern
  handle : Bytes → Request → σ → Response × σ

/-- The path of a target, without the query. -/
def pathOf (target : Bytes) : Bytes := target.takeWhile fun b => b ≠ byte '?' && b ≠ byte '#'

/-- The path as it is compared with patterns. -/
def comparable (path : Bytes) : Bytes :=
  let path := Bytes.lower path
  if path.length ≤ 1 then path
  else (path.reverse.dropWhile (· = byte '/')).reverse

/-- The parameter of a path, if the path fits. -/
def Pattern.match? (p : Pattern) (path : Bytes) : Option Bytes :=
  match p with
  | exactly fixed => if comparable path = utf8 fixed then some [] else none
  | below parent =>
    let start := utf8 parent ++ [byte '/']
    if start.isPrefixOf (comparable path) then
      let length := (comparable path).length - start.length
      let parameter := (path.drop start.length).take length
      if parameter.isEmpty || parameter.contains (byte '/') then none else some parameter
    else none

/-- The methods that are understood. -/
def methods : List String :=
  ["GET", "HEAD", "POST", "PUT", "DELETE", "CONNECT", "OPTIONS", "TRACE", "PATCH"]

/-- Does a route answer this method? -/
def Route.answers {σ : Type} (r : Route σ) (method : Bytes) : Bool :=
  utf8 r.method = method || r.method == "GET" && method = utf8 "HEAD"

/-- The first route for a method and a path, with the parameter. -/
def find? {σ : Type} (method path : Bytes) : List (Route σ) → Option (Route σ × Bytes)
  | [] => none
  | r :: rest =>
    match r.pattern.match? path with
    | some parameter => if r.answers method then some (r, parameter) else find? method path rest
    | none => find? method path rest

/-- A character that could be markup, as text. -/
def escapedByte (b : UInt8) : Bytes :=
  if b = byte '&' then utf8 "&amp;"
  else if b = byte '<' then utf8 "&lt;"
  else if b = byte '>' then utf8 "&gt;"
  else if b = byte '"' then utf8 "&#34;"
  else if b = 39 then utf8 "&#39;"
  else [b]

/-- A response of plain text. -/
def plain (status : Nat) (text : Bytes) : Response where
  status
  contentType := utf8 "text/plain; charset=utf-8"
  body := text

/-- The response to a request that no route is for. -/
def noRoute {σ : Type} (routes : List (Route σ)) (request : Request) : Response :=
  let path := pathOf request.target
  if !methods.any (utf8 · = request.method) then plain 400 (utf8 "Invalid http method")
  else if routes.any (fun r => (r.pattern.match? path).isSome) then
    plain 405 (utf8 "Method Not Allowed")
  else
    plain 404 (utf8 "Cannot " ++ request.method ++ byte ' ' :: path.flatMap escapedByte)

/-- Answers a request by the first route that fits. -/
def dispatch {σ : Type} (routes : List (Route σ)) (request : Request) (state : σ) :
    Response × σ :=
  let (response, state) :=
    match find? request.method (pathOf request.target) routes with
    | some (r, parameter) => r.handle parameter request state
    | none => (noRoute routes request, state)
  if request.method = utf8 "HEAD" then ({ response with body := [] }, state)
  else (response, state)

end Reckoner.Http
