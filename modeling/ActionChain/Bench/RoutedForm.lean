import ActionChain.Bench.Endpoint
import ActionChain.Json.Printer
import ActionChain.Json.Reader
import ActionChain.World

/-!
A form that posts its data to an address and is answered by a table of routes. What is sent and what
comes back goes over the wire as text.
-/
namespace ActionChain.Bench

inductive RouteBody
  | text (s : String)
  | json (v : Json)
  | echo
  deriving Repr

structure Route where
  path : String
  status : Nat
  delay : Nat
  body : RouteBody
  deriving Repr

structure RoutedForm where
  endpoint : String
  routes : List Route
  initial : Json := .emptyObject
  data : Json := .emptyObject
  valid : Bool := true
  errorsCleared : Nat := 0

namespace RoutedForm

def setField (name : String) (value : Json) (f : RoutedForm) : RoutedForm :=
  match f.data with
  | .object ms => { f with data := .object (Members.put name value ms) }
  | _ => f

def ownKey : String := "formset_data"
def extraKey : String := "extra_data"

/-- What is posted: the data of the form, and the members of extra data beside it. -/
def requestBody (f : RoutedForm) (extra : Option Json) : Json :=
  let own : Members Json := [(ownKey, f.data)]
  match extra with
  | some (.object ms) => .object (ms.foldl (fun body (k, v) => Members.put k v body) own)
  | some v => .object (own.put extraKey v)
  | none => .object own

/-- The response of the routes to a posted text. A text that is no JSON reads as null. -/
def respond (routes : List Route) (path : String) (sent : String) : Nat × Response :=
  match routes.find? (·.path = path) with
  | none => (0, ⟨404, .null⟩)
  | some route =>
    let text := match route.body with
      | .text s => s
      | .json v => v.compact
      | .echo => sent
    (route.delay, ⟨route.status, (Json.read? text).getD .null⟩)

/-- An invalid form sends nothing. -/
def submit (f : RoutedForm) (extra : Option Json) : RoutedForm × Reply :=
  if !f.valid then (f, .now (.ok none))
  else match Endpoint.read f.endpoint with
    | .error e => (f, .now (.error (.submission e.message)))
    | .ok path =>
      let (delay, r) := respond f.routes (String.ofList path) (f.requestBody extra).compact
      (f, .later delay (.ok (some r)))

instance : Form RoutedForm where
  value? f path := f.data.atPath? path
  submit := submit
  reset f := { f with data := f.initial }
  clearErrors f := { f with errorsCleared := f.errorsCleared + 1 }
  abort f := f

end RoutedForm

end ActionChain.Bench
