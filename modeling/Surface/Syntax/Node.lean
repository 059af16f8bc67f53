import Surface.Syntax.File

/-!
# Nodes of all sorts

Expressions, patterns and statements are logged, each sort by itself. A node is identified by its
sort and by its number among the nodes of that sort.

* `Node`, `Node.id`: nodes of all sorts and what identifies them.
* `NodeLog.get?`: the node with an id.
-/

namespace Surface

/-- The sorts of nodes that are logged. -/
inductive NodeSort
  | expr | pattern | stmt
deriving DecidableEq, Repr

/-- What identifies a node: its number among the nodes of its sort (`ExprId`, `PatternId`,
`StmtId`). -/
structure NodeId where
  sort : NodeSort
  number : Nat
deriving DecidableEq, Repr

/-- A node of any sort. -/
inductive Node
  | expr (e : Expr)
  | pattern (p : Pattern)
  | stmt (s : Stmt)

namespace Node

/-- The sort of a node. -/
def sort : Node → NodeSort
  | expr _ => .expr
  | pattern _ => .pattern
  | stmt _ => .stmt

/-- The mark of a node. -/
def mark : Node → Mark
  | expr e => e.mark
  | pattern p => p.mark
  | stmt s => s.mark

/-- What identifies a node. -/
def id (n : Node) : NodeId := ⟨n.sort, n.mark.number⟩

/-- Whether a node stands for a statement that could not be read. -/
def isError : Node → Bool
  | stmt s => s.isError
  | _ => false

end Node

namespace NodeLog

/-- The node with an id, unless that is out of bounds. -/
def get? (log : NodeLog) (id : NodeId) : Option Node :=
  match id.sort with
  | .expr => log.exprs[id.number]?.map .expr
  | .pattern => log.patterns[id.number]?.map .pattern
  | .stmt => log.stmts[id.number]?.map .stmt

/-- All nodes of a log. -/
def all (log : NodeLog) : List Node :=
  log.exprs.toList.map .expr ++ log.patterns.toList.map .pattern ++ log.stmts.toList.map .stmt

end NodeLog

end Surface
