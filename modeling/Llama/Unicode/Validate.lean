import Llama.Unicode.Complete

/-!
# Where a text may be cut

`validate_utf8` looks at the last four bytes of a text for one that starts a character of which
bytes are missing.  In a text that is a part of a valid one there is such a byte if and only if the
text ends inside a character.
-/

namespace Llama.Unicode

/-- The loop of `validate_utf8`, over the bytes from the last one on. -/
def validateFrom (len : ℕ) : ℕ → List UInt8 → ℕ
  | _, [] => len
  | i, c :: rest =>
    if 4 < i then len
    else if c &&& 0xE0 = 0xC0 ∧ i < 2 then len - i
    else if c &&& 0xF0 = 0xE0 ∧ i < 3 then len - i
    else if c &&& 0xF8 = 0xF0 ∧ i < 4 then len - i
    else validateFrom len (i + 1) rest

def validateUtf8 (text : List UInt8) : ℕ :=
  if text.length = 0 then 0 else validateFrom text.length 1 text.reverse

end Llama.Unicode
