set_option autoImplicit false

/-! # Places in a text

A place is a byte offset into the UTF-8 form of a text; a `Span` is a range of them. People read
lines and columns instead: lines are divided by `\n`, columns count characters, both from one.

    a = 1⏎        offset 0 is 1:1, offset 5 is 1:6
    é = 2⏎        offset 6 is 2:1, offset 8 is 2:2
-/

namespace RubyJs

/-- The range of byte offsets from `start` up to, not including, `stop`. -/
structure Span where
  start : Nat
  stop : Nat
deriving DecidableEq, Repr

namespace Span

/-- The smallest span that covers both. -/
def union (s t : Span) : Span :=
  ⟨min s.start t.start, max s.stop t.stop⟩

/-- The number of bytes in the span. -/
def size (s : Span) : Nat := s.stop - s.start

end Span

/-- The number of bytes of the UTF-8 form of `cs`. -/
def byteSize : List Char → Nat
  | [] => 0
  | c :: cs => c.utf8Size + byteSize cs

@[simp] theorem byteSize_nil : byteSize [] = 0 := rfl

@[simp] theorem byteSize_cons (c : Char) (cs : List Char) :
    byteSize (c :: cs) = c.utf8Size + byteSize cs := rfl

@[simp] theorem byteSize_append (cs ds : List Char) :
    byteSize (cs ++ ds) = byteSize cs + byteSize ds := by
  induction cs with
  | nil => simp
  | cons c cs ih => simp [ih, Nat.add_assoc]

/-- The characters of `cs` that begin at or after byte `start` and before byte `stop`. -/
def sliceBytes (cs : List Char) (start stop : Nat) : List Char :=
  go 0 cs
where
  /-- Walks the text; `offset` is that of the head. -/
  go (offset : Nat) : List Char → List Char
    | [] => []
    | c :: cs =>
      if stop ≤ offset then []
      else if start ≤ offset then c :: go (offset + c.utf8Size) cs
      else go (offset + c.utf8Size) cs

/-- The character that ends at byte `offset`, if one does. -/
def charBefore (cs : List Char) (offset : Nat) : Option Char :=
  go 0 cs
where
  /-- Walks the text; `seen` is the offset of the head. -/
  go (seen : Nat) : List Char → Option Char
    | [] => none
    | c :: cs =>
      if seen + c.utf8Size = offset then some c else go (seen + c.utf8Size) cs

/-- A line and a column, both counted from one. -/
structure Position where
  line : Nat
  column : Nat
deriving DecidableEq, Repr

namespace Position

/-- The position where a text begins. -/
def first : Position := ⟨1, 1⟩

/-- The position after the character `c` at `p`. -/
def step (p : Position) (c : Char) : Position :=
  if c = '\n' then ⟨p.line + 1, 1⟩ else ⟨p.line, p.column + 1⟩

/-- The position `offset` bytes into `cs`, a text that begins at `p`. Past the end it is the
position of the end. -/
def walk (p : Position) : List Char → Nat → Position
  | [], _ => p
  | c :: cs, offset =>
    if offset < c.utf8Size then p else walk (p.step c) cs (offset - c.utf8Size)

/-- The position of a byte offset in a text. -/
def ofOffset (text : String) (offset : Nat) : Position :=
  first.walk text.toList offset

end Position

end RubyJs
