import Surface.Span
import Surface.Text.Escaped

/-!
# Trees

One form for everything a file contains: nodes with a kind and children, and tokens with their
text. A child is stored under the name of a field; a field may occur more than once.

* `Tree.shape`: kinds, fields and token texts as one line, without spans.
* `Tree.child?`, `Tree.node?`, `Tree.nodes`, `Tree.text?`: what is stored under a field.
* `Tree.walk`: the nodes from the root on, each before its children.
-/

namespace Surface

/-- A node or a token (`SyntaxNode`). -/
inductive Tree
  | node (kind : String) (span : Span) (children : List (String × Tree))
  | token (text : String) (span : Span)

namespace Tree

/-- The text a tree covers. -/
def span : Tree → Span
  | node _ s _ | token _ s => s

/-- The kind of a node; a token has none. -/
def kind : Tree → String
  | node k _ _ => k
  | token _ _ => ""

/-- The children of a node in order, each with its field. -/
def children : Tree → List (String × Tree)
  | node _ _ cs => cs
  | token _ _ => []

/-- Whether a tree is a node. -/
def isNode : Tree → Bool
  | node _ _ _ => true
  | token _ _ => false

/-- The text of a token. -/
def tokenText? : Tree → Option String
  | node _ _ _ => none
  | token t _ => some t

/-! ## Children by field -/

/-- All children under a field. -/
def under (t : Tree) (field : String) : List Tree :=
  t.children.filterMap fun (f, c) => if f == field then some c else none

/-- The first child under a field (`SyntaxNode::child`). -/
def child? (t : Tree) (field : String) : Option Tree := (t.under field).head?

/-- The nodes under a field (`SyntaxNode::children`). -/
def nodes (t : Tree) (field : String) : List Tree := (t.under field).filter isNode

/-- The first node under a field (`SyntaxNode::child_node`). -/
def node? (t : Tree) (field : String) : Option Tree := (t.nodes field).head?

/-- The text of the first token under a field (`SyntaxNode::token_text`). -/
def text? (t : Tree) (field : String) : Option String := (t.under field).findSome? tokenText?

/-! ## Shapes -/

mutual

/-- Writes the shape of a tree behind a text: a node is its kind and its children between
parentheses, a token its text, quoted (`SyntaxNode::write_shape`). -/
def writeShape (out : String) : Tree → String
  | node kind _ children => writeChildShapes (out ++ "(" ++ kind) children ++ ")"
  | token text _ => out ++ Text.quoted text

/-- Writes children behind a text, each behind a space, its field and a colon. -/
def writeChildShapes (out : String) : List (String × Tree) → String
  | [] => out
  | (field, child) :: rest =>
    writeChildShapes (writeShape (out ++ " " ++ field ++ ":") child) rest

end

/-- The shape of a tree: its kinds, fields and token texts, without spans (`SyntaxNode::shape`). -/
def shape (t : Tree) : String := writeShape "" t

/-! ## Walks -/

/-- A part of a tree: how deep it lies, the field it is stored under, and the part itself. -/
structure Entry where
  depth : Nat
  field : String
  tree : Tree

mutual

/-- A tree that lies at a depth under a field, and all its parts, each before its children;
`rest` is put behind them. -/
def entriesOnto (depth : Nat) (field : String) (t : Tree) (rest : List Entry) : List Entry :=
  match t with
  | node kind span children =>
    ⟨depth, field, node kind span children⟩ :: childEntriesOnto (depth + 1) children rest
  | token text span => ⟨depth, field, token text span⟩ :: rest

/-- The parts of children that lie at a depth; `rest` is put behind them. -/
def childEntriesOnto (depth : Nat) (children : List (String × Tree)) (rest : List Entry) :
    List Entry :=
  match children with
  | [] => rest
  | (field, child) :: others =>
    entriesOnto depth field child (childEntriesOnto depth others rest)

end

/-- All parts of a tree, each before its children. The root lies at depth 0 under no field. -/
def entries (t : Tree) : List Entry := t.entriesOnto 0 "" []

/-- The nodes of a tree, each before its children (`SyntaxNode::walk`). -/
def walk (t : Tree) : List Entry := t.entries.filter fun e => e.tree.isNode

end Tree

end Surface
