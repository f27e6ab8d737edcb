/-!
# Places in a source text

A place is a line, a column counted in characters, and an offset counted in
UTF-8 bytes. Lines and columns start at one and offsets at zero, so the place
with line zero stands for "nowhere in the source"; nodes made by an edit have
it.

Moving over a text is the only way a place changes. Moving is additive:
moving over two texts in turn is moving over their concatenation
(`advance_append`).
-/

set_option autoImplicit false

namespace Starlark

/-- A place in a source text. -/
structure Position where
  /-- The line, from one; zero for a place outside every source. -/
  line : Nat
  /-- The column in characters, from one. -/
  column : Nat
  /-- The offset in UTF-8 bytes, from zero. -/
  offset : Nat
  deriving DecidableEq

namespace Position

/-- The place outside every source. -/
def nowhere : Position := ⟨0, 0, 0⟩

/-- The first place of every source. -/
def origin : Position := ⟨1, 1, 0⟩

instance : Inhabited Position := ⟨nowhere⟩

/-- Whether a place lies in a source. -/
def isValid (p : Position) : Bool := 0 < p.line

/-- The place after one character. -/
def next (p : Position) (c : Char) : Position :=
  if c = '\n' then ⟨p.line + 1, 1, p.offset + c.utf8Size⟩
  else ⟨p.line, p.column + 1, p.offset + c.utf8Size⟩

/-- The place after a run of characters. -/
def advance (p : Position) (text : List Char) : Position := text.foldl next p

/-- The place after a string. -/
def add (p : Position) (text : String) : Position := p.advance text.toList

/-- The place one column on, on the same line, after a single byte. -/
def right (p : Position) : Position := ⟨p.line, p.column + 1, p.offset + 1⟩

/-- Lines and columns, the way places are reported. -/
def shown (p : Position) : String := toString p.line ++ ":" ++ toString p.column

@[simp] theorem advance_nil (p : Position) : p.advance [] = p := rfl

@[simp] theorem advance_cons (p : Position) (c : Char) (text : List Char) :
    p.advance (c :: text) = (p.next c).advance text := rfl

/-- Moving over two texts in turn is moving over their concatenation. -/
theorem advance_append (p : Position) (first second : List Char) :
    p.advance (first ++ second) = (p.advance first).advance second := by
  simp [advance, List.foldl_append]

end Position

end Starlark
