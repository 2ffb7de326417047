/-!
# Text of the server (`text.rs`)
-/

namespace Cantrip.Text

def whitespace (ch : Char) : Bool :=
  let u := ch.toNat
  (0x0009 ≤ u && u ≤ 0x000d) || u == 0x0020 || u == 0x00a0 || u == 0x1680 || (0x2000 ≤ u && u ≤ 0x200a) || u == 0x2028 ||
    u == 0x2029 || u == 0x202f || u == 0x205f || u == 0x3000 || u == 0xfeff

/-- `trim_matches(whitespace)`. -/
def trimChars (value : List Char) : List Char :=
  ((value.dropWhile whitespace).reverse.dropWhile whitespace).reverse

def trim (value : String) : String := String.ofList (trimChars value.toList)

/-- The length of a text in UTF-16 units. -/
def length (value : String) : Nat := value.toList.foldl (fun n ch => n + if ch.toNat < 0x10000 then 1 else 2) 0

end Cantrip.Text
