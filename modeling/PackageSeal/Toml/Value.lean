import PackageSeal.Decimal.Shortest
import PackageSeal.Text.Quoted

/-!
# TOML values

What a TOML document says. Dates and times are told apart from other values, but what they say is
not kept: nothing here is configured by a date.
-/

namespace PackageSeal.Toml

/-- A value of a TOML document. -/
inductive Value where
  | string (text : String)
  | integer (n : Int)
  | float (x : Float)
  | boolean (b : Bool)
  | moment
  | array (items : List Value)
  | table (entries : List (String × Value))

namespace Value

/-- A value in words, for complaints about its kind. -/
def shown : Value → String
  | string text => "string " ++ Text.quoted text
  | integer n => s!"integer \x60{n}\x60"
  | float x => "floating point \x60" ++ Decimal.ofFloat x ++ "\x60"
  | boolean b => s!"boolean \x60{b}\x60"
  | moment => "map"
  | array _ => "sequence"
  | table _ => "map"

end Value

end PackageSeal.Toml
