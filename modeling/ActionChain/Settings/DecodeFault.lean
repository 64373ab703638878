import ActionChain.Json.Basic
import ActionChain.Number.Style
import ActionChain.Text.Escape

/-!
Why a JSON value is no settings value.
-/
namespace ActionChain

/-- A value in messages: its kind, and what it holds if that is short. -/
def Json.described : Json → String
  | .null => "null"
  | .bool b => "boolean `" ++ toString b ++ "`"
  | .int n => "integer `" ++ toString n ++ "`"
  | .float x => "floating point `" ++ NumberStyle.json.text x ++ "`"
  | .string s => "string " ++ Text.quoted s
  | .array _ => "sequence"
  | .object _ => "map"

inductive DecodeFault
  | kind (given : Json) (wanted : String)
  | range (given : Json) (wanted : String)
  | choice (given : String) (known : List String)
  | length (given : Nat) (wanted : String)
  | missing (field : String)
  deriving Repr

def DecodeFault.message : DecodeFault → String
  | .kind given wanted => "invalid type: " ++ given.described ++ ", expected " ++ wanted
  | .range given wanted => "invalid value: " ++ given.described ++ ", expected " ++ wanted
  | .choice given known =>
    "unknown variant `" ++ given ++ "`, expected " ++
      String.intercalate " or " (known.map fun k => "`" ++ k ++ "`")
  | .length given wanted => "invalid length " ++ toString given ++ ", expected " ++ wanted
  | .missing field => "missing field `" ++ field ++ "`"

end ActionChain
