import OpenDocument.Bytes

/-!
# OpenDocument.Text.CodePage

Code page 437, in which archives keep texts that are not marked as UTF-8: ASCII below 128, and a
table above.
-/

namespace OpenDocument.Text

/-- The characters of the bytes from 128 on. -/
def codePageHigh : List Char :=
  ("ÇüéâäàåçêëèïîìÄÅÉæÆôöòûùÿÖÜ¢£¥₧ƒ"
    ++ "áíóúñÑªº¿⌐¬½¼¡«»░▒▓│┤╡╢╖╕╣║╗╝╜╛┐"
    ++ "└┴┬├─┼╞╟╚╔╩╦╠═╬╧╨╤╥╙╘╒╓╫╪┘┌█▄▌▐▀"
    ++ "αßΓπΣσµτΦΘΩδ∞φε∩≡±≥≤⌠⌡÷≈°∙·√ⁿ²■\xa0").toList

/-- The character of a byte. -/
def codePageChar (b : UInt8) : Char :=
  if b < 128 then Char.ofNat b.toNat else codePageHigh.getD (b.toNat - 128) '?'

/-- The text of a byte string in code page 437. -/
def ofCodePage (bs : Bytes) : String :=
  String.ofList (bs.map codePageChar)

end OpenDocument.Text
