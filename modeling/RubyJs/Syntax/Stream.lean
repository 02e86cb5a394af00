import RubyJs.Token

set_option autoImplicit false

/-! # Streams of tokens

The tokens left to read: the current one, those that follow, and the one before. The last token of
a stream is never passed.
-/

namespace RubyJs

/-- Tokens to read. -/
structure Stream where
  previous : Option Token
  current : Token
  following : List Token

namespace Stream

/-- The tokens of a text, from the first on. -/
def ofLexed (l : Lexed) : Stream :=
  match l.written with
  | [] => ⟨none, Token.endOfInput l.stop, []⟩
  | t :: ts => ⟨none, t, ts ++ [Token.endOfInput l.stop]⟩

/-- The stream after the current token, or the same if it is the last. -/
def next (s : Stream) : Stream :=
  match s.following with
  | [] => s
  | t :: ts => ⟨some s.current, t, ts⟩

/-- The stream after the tokens at the front whose kind has `p`. -/
def skipWhile (p : TokenKind → Bool) (s : Stream) : Stream :=
  go s.previous s.current s.following
where
  /-- Walks the tokens. -/
  go (previous : Option Token) (current : Token) : List Token → Stream
    | [] => ⟨previous, current, []⟩
    | t :: ts => if p current.kind then go (some current) t ts else ⟨previous, current, t :: ts⟩

/-- The token after the current one, or the current one if it is the last. -/
def second (s : Stream) : Token := s.following.headD s.current

/-- The token before the current one, or the current one if it is the first. -/
def before (s : Stream) : Token := s.previous.getD s.current

/-- The number of tokens left. -/
def length (s : Stream) : Nat := s.following.length + 1

end Stream

end RubyJs
