import ActionChain.Catalogue
import ActionChain.Expression.Parser

/-!
Chains ready to run: every call of an expression resolved to a step of a catalogue. The first call
in the order of the source that cannot be resolved stops the building.
-/
namespace ActionChain

structure Resolved (τ : Type) where
  call : Call
  arguments : List Bound
  step : τ

structure Chains (τ : Type) where
  success : List (Resolved τ)
  reject : List (Resolved τ)

namespace Catalogue

variable {τ : Type}

/-- Resolves one call. An unknown name is reported before anything in the arguments. -/
def resolve (c : Catalogue τ) (call : Call) : Except Fault (Resolved τ) :=
  if c.contains call.name then do
    let arguments ← call.args.mapM (Bound.bind call.name)
    let step ← c.create call.name arguments
    return ⟨call, arguments, step⟩
  else .error (.unknownAction call.name)

def build (c : Catalogue τ) (e : Expression) : Except Fault (Chains τ) := do
  let success ← e.success.mapM c.resolve
  let reject ← e.reject.mapM c.resolve
  return ⟨success, reject⟩

def compile (c : Catalogue τ) (text : String) : Except Fault (Chains τ) :=
  match Expression.parse text with
  | .ok e => c.build e
  | .error e => .error (.malformed e)

end Catalogue

def Chains.text {τ : Type} (c : Chains τ) : String :=
  let chain (steps : List (Resolved τ)) := Call.chainText (steps.map (·.call))
  chain c.success ++ if c.reject.isEmpty then "" else " !~ " ++ chain c.reject

end ActionChain
