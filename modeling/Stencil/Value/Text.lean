import Stencil.Json.Writer

/-! The text a value leaves in the output. -/
namespace Stencil

/-- Whole numbers below `10 ^ 21` are written exactly, all others with the shortest digits that
name them; neither form has an exponent. -/
def Number.text : Number → Text
  | .int n => Decimal.ofInt n
  | .float .nan => "NaN".toList
  | .float (.signed negative rank) =>
    let sign : Text := if negative then ['-'] else []
    if rank = Binary64.infinityRank then sign ++ "inf".toList
    else match (Binary64.signed negative rank).toInt? with
      | some n =>
        if n.natAbs < Nat.pow 10 21 then Decimal.ofInt n
        else sign ++ (Decimal.shortest .up rank).positional
      | none => sign ++ (Decimal.shortest .up rank).positional

namespace Value

mutual

/-- Null leaves nothing, an array the texts of its items between commas, an object its JSON. -/
def text : Value → Text
  | .null => []
  | .bool true => "true".toList
  | .bool false => "false".toList
  | .number n => n.text
  | .string s => s
  | .array items => textItems items
  | .object fields => Json.write (.object fields)

def textItems : List Value → Text
  | [] => []
  | [v] => text v
  | v :: w :: rest => text v ++ ',' :: textItems (w :: rest)

end

end Value
end Stencil
