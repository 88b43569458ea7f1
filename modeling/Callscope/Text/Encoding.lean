/-!
# Texts as bytes

A text is written as UTF-8. Only characters have bytes: a code point between the two ranges of characters
is one half of a surrogate pair, and what holds one cannot be written.
-/

namespace Callscope

namespace Text

/-- The code points of a text. -/
def codes (s : String) : List UInt32 := s.toList.map Char.val

/-- The character with a code point. -/
def charOf? (code : UInt32) : Option Char :=
  if h : code.isValidChar then some ⟨code, h⟩ else none

/-- The bytes of code points, none if one of them is no character. -/
def encode? (codes : List UInt32) : Option ByteArray :=
  (codes.mapM charOf?).map fun cs => (String.ofList cs).toUTF8

end Text

end Callscope
