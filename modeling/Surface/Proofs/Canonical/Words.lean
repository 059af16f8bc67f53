import Surface.Layout.Syntax

/-!
# The words of a tree

A tree in the canonical layout is a sequence of words with blanks between them. A word is a token as
the grammar sees it: a line break in the canonical layout is one word, with a semicolon or without.

Results:
* `Pattern.words`, `Expr.words`, `Stmt.words`, `Block.words`: the words of patterns, expressions,
  statements and blocks.
* `Decl.words`, `Item.words`: the words of declarations and items.
-/

namespace Surface

/-- What the grammar sees of a token: its kind, and whether a semicolon is part of it. -/
abbrev Word := TokenKind × Bool

namespace Word

def token (k : TokenKind) : Word := (k, false)

def punct (p : Punct) : Word := token (.punct p)

def reserved (r : Reserved) : Word := token (.reserved r)

def keyword (k : Keyword) : Word := token (.keyword k)

def lineBreak : Word := token .lineBreak

/-- Words with commas between them. -/
def commas : List (List Word) → List Word
  | [] => []
  | [ws] => ws
  | ws :: wss => ws ++ punct .comma :: commas wss

/-- Lines between braces; there are none if nothing stands between the braces. -/
def braced (isEmpty : Bool) (lines : List (List Word)) : List Word :=
  if isEmpty then [punct .openBrace, punct .closeBrace]
  else punct .openBrace :: (lines.flatMap fun ws => lineBreak :: ws) ++ [lineBreak, punct .closeBrace]

end Word

/-! ## Names, paths and literals -/

/-- The token that spells a name. -/
def nameKind (n : String) : TokenKind :=
  if n.toList.head?.any Layout.startsName then .ident n else .symbolIdent n

/-- The words of a path. -/
def Path.words (p : Path) : List Word :=
  .token (nameKind p.head.name) :: p.tail.flatMap fun x => [.reserved .dot, .token (nameKind x.name)]

/-- The token that spells a literal. -/
def Literal.kind : Literal → TokenKind
  | string s => .string s
  | char c => .char c
  | number n => .number n

/-- The token that spells an operator. -/
def operatorKind (symbols : String) : TokenKind :=
  if symbols = Reserved.pipe.text then .reserved .pipe else .operator symbols

/-! ## Patterns -/

/-- Words between parentheses, if `b` holds. -/
def Word.parenthesizedIf (b : Bool) (ws : List Word) : List Word :=
  if b then .punct .openParen :: ws ++ [.punct .closeParen] else ws

mutual

/-- The words of a pattern. -/
def Pattern.words : Pattern → List Word
  | .cons _ p args => p.words ++ Pattern.argWords args
  | .rest _ => [.reserved .dotDot]
  | .literal _ v => [.token v.kind]

/-- The words of patterns that are arguments. -/
def Pattern.argWords : List Pattern → List Word
  | [] => []
  | p :: ps => Word.parenthesizedIf p.hasArgs p.words ++ Pattern.argWords ps

end

/-! ## Expressions and statements -/

mutual

/-- The words of an expression. -/
def Expr.words : Expr → List Word
  | .literal _ v => [.token v.kind]
  | .name _ n => [.token (nameKind n)]
  | .path _ p => p.words
  | .tuple _ es trailing =>
    .punct .openParen :: Word.commas (Expr.wordLists es) ++ (if trailing then [.punct .comma] else [])
      ++ [.punct .closeParen]
  | .array _ es => .punct .openBracket :: Word.commas (Expr.wordLists es) ++ [.punct .closeBracket]
  | .conditional _ c t e =>
    .keyword .ifKw :: c.words ++ t.thenWords ++ .keyword .elseKw :: e.words
  | .matchOn _ s arms => .keyword .matchKw :: s.words ++ Word.braced arms.isEmpty (Arm.wordLists arms)
  | .returned _ v => .keyword .returnKw :: Expr.optionalWords v
  | .app _ f es b => f.words ++ (Expr.wordLists es).flatten ++ Block.optionalWords b
  | .typeApp _ f es => f.words ++ (Expr.wordLists es).flatten
  | .lambda _ [] b => .token (.operator "||") :: b.words
  | .lambda _ ps b =>
    .reserved .pipe :: Word.commas (Param.wordLists ps) ++ .reserved .pipe :: b.words
  | .arrow _ d c => d.words ++ .reserved .arrow :: c.words
  | .pi _ ps c =>
    .punct .openParen :: Word.commas (Param.wordLists ps) ++ .punct .closeParen
      :: .reserved .arrow :: c.words
  | .sigma _ ps c =>
    .punct .openBracket :: Word.commas (Param.wordLists ps) ++ .punct .closeBracket
      :: .reserved .arrow :: c.words
  | .ascription _ v t => v.words ++ .punct .colon :: t.words
  | .binary _ l op r => l.words ++ .token (operatorKind op.symbols) :: r.words

/-- The words of expressions one by one. -/
def Expr.wordLists : List Expr → List (List Word)
  | [] => []
  | e :: es => e.words :: Expr.wordLists es

/-- The words of an expression that may be absent. -/
def Expr.optionalWords : Option Expr → List Word
  | none => []
  | some e => e.words

/-- The words of a statement; what could not be read has none. -/
def Stmt.words : Stmt → List Word
  | .letIn _ p v => .keyword .letKw :: p.words ++ .reserved .eq :: v.words
  | .conditional _ c t e => .keyword .ifKw :: c.words ++ t.thenWords ++ Body.elseWords e
  | .ask _ p v => p.words ++ .reserved .leftArrow :: v.words
  | .expr _ v => v.words
  | .error _ => []

/-- The words of statements one by one, without those that could not be read. -/
def Stmt.wordLists : List Stmt → List (List Word)
  | [] => []
  | s :: ss => if s.isError then Stmt.wordLists ss else s.words :: Stmt.wordLists ss

/-- The words of a block. -/
def Block.words : Block → List Word
  | ⟨ss, _⟩ => Word.braced ss.isEmpty (Stmt.wordLists ss)

/-- The words of a block that may be absent. -/
def Block.optionalWords : Option Block → List Word
  | none => []
  | some b => b.words

/-- The words of a body. -/
def Body.words : Body → List Word
  | .block b => b.words
  | .expr e => e.words

/-- The words of the first branch of a conditional, behind its condition. -/
def Body.thenWords : Body → List Word
  | .block b => b.words
  | .expr e => .keyword .thenKw :: e.words

/-- The words of the second branch of a conditional, if there is one. -/
def Body.elseWords : Option Body → List Word
  | none => []
  | some b => .keyword .elseKw :: b.words

/-- The words of a match arm. -/
def Arm.words : Arm → List Word
  | ⟨p, b, _⟩ => p.words ++ .reserved .fatArrow :: b.words ++ [.punct .comma]

/-- The words of match arms one by one. -/
def Arm.wordLists : List Arm → List (List Word)
  | [] => []
  | a :: as => a.words :: Arm.wordLists as

/-- The words of a type behind a colon, if there is one. -/
def Param.typeWords : Option Expr → List Word
  | none => []
  | some t => .punct .colon :: t.words

/-- The words of a parameter. -/
def Param.words : Param → List Word
  | ⟨p, t, _⟩ => p.words ++ Param.typeWords t

/-- The words of parameters one by one. -/
def Param.wordLists : List Param → List (List Word)
  | [] => []
  | p :: ps => p.words :: Param.wordLists ps

end

/-! ## Declarations and files -/

/-- The words of an attribute. -/
def Attribute.words (a : Attribute) : List Word :=
  .punct .atSign :: a.path.words ++ a.args.elim [] fun es =>
    .punct .openParen :: Word.commas (Expr.wordLists es) ++ [.punct .closeParen]

/-- The words of a list of parameters. -/
def ParamList.words (l : ParamList) : List Word :=
  .punct (if l.implicit then .openBracket else .openParen) :: Word.commas (Param.wordLists l.params)
    ++ [.punct (if l.implicit then .closeBracket else .closeParen)]

/-- The words of a signature. -/
def Signature.words (s : Signature) : List Word :=
  s.name.words ++ s.params.flatMap ParamList.words ++ Param.typeWords s.type
    ++ Block.optionalWords s.value

/-- The words of a clause. -/
def Clause.words (c : Clause) : List Word :=
  c.name.words ++ Pattern.argWords c.patterns ++ .reserved .eq :: Expr.optionalWords c.value

/-- The words of a parameter of a constructor. -/
def CtorParam.words : CtorParam → List Word
  | positional t => t.words
  | named x t => .token (nameKind x.name) :: .punct .colon :: t.words

/-- The words of what follows the name of a constructor. -/
def CtorForm.words : CtorForm → List Word
  | typed t => .punct .colon :: t.words
  | applied none => []
  | applied (some ps) =>
    .punct .openParen :: Word.commas (ps.map CtorParam.words) ++ [.punct .closeParen]

/-- The words of a constructor. -/
def Ctor.words (c : Ctor) : List Word := c.name.words ++ c.form.words

/-- The words of constructors, with commas and line breaks between them. -/
def ctorWords : List Ctor → List Word
  | [] => []
  | [c] => c.words
  | c :: cs => c.words ++ .punct .comma :: .lineBreak :: ctorWords cs

/-- The words of methods, each behind a line break; a semicolon may stand before the first one. -/
def methodWords (semicolon : Bool) : List Signature → List Word
  | [] => []
  | m :: ms => (.lineBreak, semicolon) :: m.words ++ methodWords false ms

/-- The words of the body of a type declaration. -/
def TypeBody.words (sort : TypeSort) (b : TypeBody) : List Word :=
  if b.ctors.isEmpty && b.methods.isEmpty then [.punct .openBrace, .punct .closeBrace]
  else .punct .openBrace :: (if b.ctors.isEmpty then [] else .lineBreak :: ctorWords b.ctors)
    ++ methodWords (sort != .trait) b.methods ++ [.lineBreak, .punct .closeBrace]

/-- The words of a type declaration. -/
def TypeDecl.words (d : TypeDecl) : List Word :=
  (d.visibility.elim [] fun v => [.keyword v.1.keyword]) ++ .keyword d.sort.keyword
    :: (d.name.words ++ d.params.flatMap ParamList.words ++ Param.typeWords d.type
      ++ d.body.elim [] (TypeBody.words d.sort))

/-- The words of a declaration behind its attributes. -/
def DeclForm.words : DeclForm → List Word
  | uses p => .keyword .useKw :: p.words
  | command n args => .punct .hash :: n.words ++ (Expr.wordLists args).flatten
  | type d => d.words
  | signature s => s.words
  | clause c => c.words
  | error => []

/-- The words of a declaration; each attribute stands on a line of its own. -/
def Decl.words (d : Decl) : List Word :=
  (d.attributes.flatMap fun a => a.words ++ [.lineBreak]) ++ d.form.words

/-- The words of an item. -/
def Item.words : Item → List Word
  | decl d => d.words
  | stmt s => s.words

end Surface
