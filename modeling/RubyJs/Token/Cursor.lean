import RubyJs.Text.Position

set_option autoImplicit false

/-! # Reading a text from left to right

A `Cursor` is the text that is left to read, with the byte offset where it begins. Moving it on
never changes the offset where the text ends (`Cursor.stop_skip`).
-/

namespace RubyJs

/-- Text to read and the offset of its first character. -/
structure Cursor where
  rest : List Char
  offset : Nat
deriving DecidableEq, Repr

namespace Cursor

/-- The cursor `n` characters further on. -/
def skip (c : Cursor) (n : Nat) : Cursor :=
  ⟨c.rest.drop n, c.offset + byteSize (c.rest.take n)⟩

/-- The character `n` places further on. -/
def peekAt (c : Cursor) (n : Nat) : Option Char := c.rest[n]?

/-- The offset where the text ends. -/
def stop (c : Cursor) : Nat := c.offset + byteSize c.rest

theorem stop_skip (c : Cursor) (n : Nat) : (c.skip n).stop = c.stop := by
  have h : byteSize c.rest = byteSize (c.rest.take n) + byteSize (c.rest.drop n) := by
    rw [← byteSize_append, List.take_append_drop]
  simp only [stop, skip, h]
  omega

end Cursor

/-! ## Letters of the language -/

/-- Whether `cs` begins with the characters of `s`. -/
def startsWith (s : String) (cs : List Char) : Bool := s.toList.isPrefixOf cs

/-- Whether a name can begin with `c`. Every character outside ASCII counts as a letter. -/
def isNameStart (c : Char) : Bool := c.isAlpha || c == '_' || 0x80 ≤ c.toNat

/-- Whether a name can go on with `c`. -/
def isNameChar (c : Char) : Bool := isNameStart c || c.isDigit

end RubyJs
