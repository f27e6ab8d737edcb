import Starlark.Proofs.Reader
import Starlark.Reader.Statement

/-!
# The grammar of statements

What the readers of statements accept, written down without lookahead and
without bounds. Small statements and the lines made of them come first.
Statements with a body hold lines, and lines hold such statements, so these
share one relation: `Builds types ts r` says that the tokens `ts` build the
reading `r`, which is a body, a statement with a body, the `elif` branches of
an `if`, or a run of lines.

Putting lines together to a block, and cutting the comments off the end of a
body, are functions of what has been read; the relation uses them as they are.
-/

set_option autoImplicit false

namespace Starlark

open Reader (Listed Suite Arm Ended)

/-! ## Small statements -/

/-- The tokens of a symbol of a `load`. -/
inductive BindingTokens : List Token → Binding → Prop
  | symbol {t : Token} {x : Name} (kind : t.kind = .string) (value : Reader.symbolOf t = .ok x) :
      BindingTokens [t] ⟨x, x⟩
  | renamed {t e s : Token} {x : Name} (named : Reader.isName t.kind = true)
      (eq : e.kind = .symbol .eq) (kind : s.kind = .string)
      (value : Reader.symbolOf s = .ok x) :
      BindingTokens [t, e, s] ⟨x, ⟨t.pos, t.text, .none⟩⟩

/-- The words that are a statement by themselves. -/
def Token.Kind.isBranch : Token.Kind → Bool
  | .keyword .pass | .keyword .break | .keyword .continue => true
  | _ => false

theorem isInline_of_isBranch {kind : Token.Kind} (branch : kind.isBranch = true) :
    kind.isInline = true := by
  unfold Token.Kind.isBranch at branch
  split at branch <;> first | rfl | cases branch

/-- The tokens of a statement without a body. A `load` in front of a parenthesis starts a
statement of its own, and no other. -/
inductive SmallStmt : List Token → Node → Prop
  | returnNothing {t : Token} (key : t.kind = .keyword .return) :
      SmallStmt [t] (.bare (.returnStmt t.pos none))
  | returnValue {t : Token} {ts : List Token} {x : Node} (key : t.kind = .keyword .return)
      (value : Spells .expression ts [x]) :
      SmallStmt (t :: ts) (.bare (.returnStmt t.pos (some x)))
  | branch {t : Token} (key : t.kind.isBranch = true) :
      SmallStmt [t] (.bare (.branch t.text t.pos))
  | load {a b c d : Token} {ts : List Token} {label : StringLit} {bindings : List Binding}
      (key : a.kind = .keyword .load) (opening : b.kind = .symbol .lparen)
      (kind : c.kind = .string) (value : StringLit.ofToken c = .ok label)
      (symbols : Listed BindingTokens ts bindings) (closing : d.kind = .symbol .rparen) :
      SmallStmt (a :: b :: c :: (ts ++ [d]))
        (.bare (.load a.pos label .none bindings (.at d.pos) (a.pos.line == d.pos.line)))
  | assign {e : Token} {ts us : List Token} {x y : Node} (left : Spells .expression ts [x])
      (eq : e.kind = .symbol .eq ∨ e.kind = .augmented) (right : Spells .expression us [y])
      (other : (ts.headD .ended).kind ≠ .keyword .load) :
      SmallStmt (ts ++ e :: us) (.joined true x e.pos e.text y)
  | value {ts : List Token} {x : Node} (plain : Spells .expression ts [x])
      (other : (ts.headD .ended).kind ≠ .keyword .load) : SmallStmt ts x

/-- What follows a small statement on its line. -/
inductive LineRest : List Token → List Node → Prop
  | done {t : Token} (ends : t.kind = .newline) : LineRest [t] []
  | semi {s t : Token} (semi : s.kind = .symbol .semi) (ends : t.kind = .newline) :
      LineRest [s, t] []
  | next {s : Token} {ts us : List Token} {x : Node} {xs : List Node}
      (semi : s.kind = .symbol .semi) (first : SmallStmt ts x) (more : LineRest us xs) :
      LineRest (s :: (ts ++ us)) (x :: xs)

/-- The tokens of a line of small statements. -/
inductive StmtLine : List Token → List Node → Prop
  | mk {ts us : List Token} {x : Node} {xs : List Node} (first : SmallStmt ts x)
      (more : LineRest us xs) : StmtLine (ts ++ us) (x :: xs)

/-! ## Lines of comments -/

/-- The comment that a token is. -/
def Token.comment (t : Token) : Comment := ⟨t.pos, t.text⟩

/-- The end of the line of a header, and the comments on it. -/
inductive HeaderEnd : List Token → List Comment → Prop
  | plain {t : Token} (ends : t.kind = .newline) : HeaderEnd [t] []
  | commented {c t : Token} (kind : c.kind = .comment) (ends : t.kind = .newline) :
      HeaderEnd [c, t] [c.comment]

/-- The tokens of blank lines and comments. -/
inductive CommentLines : List Token → List Entry → Prop
  | none : CommentLines [] []
  | blank {t : Token} {ts : List Token} {entries : List Entry} (ends : t.kind = .newline)
      (more : CommentLines ts entries) : CommentLines (t :: ts) (.blank :: entries)
  | remark {c t : Token} {ts : List Token} {entries : List Entry} (kind : c.kind = .comment)
      (ends : t.kind = .newline) (more : CommentLines ts entries) :
      CommentLines (c :: t :: ts) (.remark c.comment :: entries)

/-! ## Statements with a body -/

/-- What tokens can be read as. -/
inductive Reading where
  | suite (s : Suite)
  /-- A statement with a body. -/
  | compound (stmt : Ended)
  /-- The `elif` branches of an `if`. -/
  | arms (arms : List Arm)
  | lines (entries : List Entry)

open Reader in
/-- The tokens build the reading. -/
inductive Builds (types : Bool) : List Token → Reading → Prop
  | lineSuite {ts : List Token} {vs : List Node} (line : StmtLine ts vs) :
      Builds types ts (.suite ⟨[], vs, true⟩)
  | blockSuite {a b : Token} {hs ls ts : List Token} {header : List Comment}
      {leading entries : List Entry} (ends : HeaderEnd hs header)
      (above : CommentLines ls leading) (opening : a.kind = .indent)
      (body : Builds types ts (.lines entries)) (closing : b.kind = .unindent) :
      Builds types (hs ++ ls ++ a :: (ts ++ [b]))
        (.suite ⟨header, (Block.ofEntries leading).precede (Block.ofEntries entries).nodes,
          (Block.ofEntries entries).followed⟩)
  | define {a t b c d : Token} {ps ts : List Token} {params : List Node} {s : Suite}
      (key : a.kind = .keyword .define) (named : isName t.kind = true)
      (opening : b.kind = .symbol .lparen) (parts : Spells (.params types) ps params)
      (closing : c.kind = .symbol .rparen) (colon : d.kind = .symbol .colon)
      (body : Builds types ts (.suite s)) :
      Builds types (a :: t :: b :: (ps ++ c :: d :: ts))
        (.compound (.mk (.ofSuffix s.header)
          (.defStmt a.pos t.text b.pos params c.pos d.pos s.body (.ofParts b.pos params c.pos)),
          s.followed))
  | loop {a b c : Token} {vs xs ts : List Token} {vars x : Node} {s : Suite}
      (key : a.kind = .keyword .for) (bound : Spells .targets vs [vars])
      (inside : b.kind = .keyword .in) (range : Spells .expression xs [x])
      (colon : c.kind = .symbol .colon) (body : Builds types ts (.suite s)) :
      Builds types (a :: (vs ++ b :: (xs ++ c :: ts)))
        (.compound (.mk (.ofSuffix s.header) (.forStmt a.pos vars x s.body), s.followed))
  | choice {a b : Token} {cs ts us : List Token} {cond : Node} {s : Suite} {arms : List Arm}
      (key : a.kind = .keyword .if) (test : Spells .expression cs [cond])
      (colon : b.kind = .symbol .colon) (body : Builds types ts (.suite s))
      (more : Builds types us (.arms arms)) :
      Builds types (a :: (cs ++ b :: (ts ++ us)))
        (.compound ((⟨a.pos, cond, s⟩ : Arm).ifStmt (nested (.at .nowhere) [] arms).1
            (nested (.at .nowhere) [] arms).2,
          (arms.getLast?.getD ⟨a.pos, cond, s⟩).suite.followed))
  | choiceElse {a b e c : Token} {cs ts us vs : List Token} {cond : Node} {s s' : Suite}
      {arms : List Arm} (key : a.kind = .keyword .if) (test : Spells .expression cs [cond])
      (colon : b.kind = .symbol .colon) (body : Builds types ts (.suite s))
      (more : Builds types us (.arms arms)) (otherwise : e.kind = .keyword .else)
      (second : c.kind = .symbol .colon) (last : Builds types vs (.suite s')) :
      Builds types (a :: (cs ++ b :: (ts ++ us ++ e :: c :: vs)))
        (.compound ((⟨a.pos, cond, s⟩ : Arm).ifStmt
            (nested ⟨e.pos, .ofSuffix s'.header⟩ s'.body arms).1
            (nested ⟨e.pos, .ofSuffix s'.header⟩ s'.body arms).2,
          s'.followed))
  | noArm : Builds types [] (.arms [])
  | arm {a b : Token} {cs ts us : List Token} {cond : Node} {s : Suite} {arms : List Arm}
      (key : a.kind = .keyword .elif) (test : Spells .expression cs [cond])
      (colon : b.kind = .symbol .colon) (body : Builds types ts (.suite s))
      (more : Builds types us (.arms arms)) :
      Builds types (a :: (cs ++ b :: (ts ++ us))) (.arms (⟨a.pos, cond, s⟩ :: arms))
  | noLine : Builds types [] (.lines [])
  | blank {t : Token} {ts : List Token} {entries : List Entry} (ends : t.kind = .newline)
      (more : Builds types ts (.lines entries)) :
      Builds types (t :: ts) (.lines (.blank :: entries))
  | remark {c t : Token} {ts : List Token} {entries : List Entry} (kind : c.kind = .comment)
      (ends : t.kind = .newline) (more : Builds types ts (.lines entries)) :
      Builds types (c :: t :: ts) (.lines (.remark c.comment :: entries))
  | compound {ts us : List Token} {stmt : Ended} {entries : List Entry}
      (first : Builds types ts (.compound stmt)) (more : Builds types us (.lines entries)) :
      Builds types (ts ++ us) (.lines (blockGroup stmt :: entries))
  | stmts {ts us : List Token} {vs : List Node} {entries : List Entry} (first : StmtLine ts vs)
      (more : Builds types us (.lines entries)) :
      Builds types (ts ++ us) (.lines (.group vs true :: entries))

end Starlark
