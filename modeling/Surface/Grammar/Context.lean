/-!
# Contexts

The same tokens are read in different ways depending on where they stand. A context says where
that is.
-/

namespace Surface

/-- Where something is being read (`ParseContext`). -/
structure Context where
  /-- In a type: applications are those of types and take no block. -/
  inType : Bool
  /-- A brace behind an application belongs to the form around it. -/
  noTrailingBlock : Bool
  /-- A bar ends the parameters of a lambda and is no operator. -/
  pipeSeparates : Bool
  /-- In a pattern. -/
  inPattern : Bool
deriving DecidableEq, Repr

namespace Context

/-- No special place. -/
def none : Context := ⟨false, false, false, false⟩

/-- In a type and nothing else (`ParseContext::IN_TYPE`). -/
def type : Context := { none with inType := true }

/-- In the head of a conditional or match and nothing else (`ParseContext::NO_TRAILING_BLOCK`). -/
def head : Context := { none with noTrailingBlock := true }

/-- In the parameters of a lambda and nothing else (`ParseContext::PIPE_IS_SEPARATOR`). -/
def lambdaParams : Context := { none with pipeSeparates := true }

/-- In a pattern and nothing else (`ParseContext::IN_PATTERN`). -/
def pattern : Context := { none with inPattern := true }

/-- All that holds in one of two contexts (`ParseContext::with`). -/
def union (a b : Context) : Context :=
  ⟨a.inType || b.inType, a.noTrailingBlock || b.noTrailingBlock,
    a.pipeSeparates || b.pipeSeparates, a.inPattern || b.inPattern⟩

/-- All that holds in `a` and not in `b` (`ParseContext::without`). -/
def without (a b : Context) : Context :=
  ⟨a.inType && !b.inType, a.noTrailingBlock && !b.noTrailingBlock,
    a.pipeSeparates && !b.pipeSeparates, a.inPattern && !b.inPattern⟩

/-- Whether something of `b` holds in `a` (`ParseContext::has`). -/
def meets (a b : Context) : Bool :=
  (a.inType && b.inType) || (a.noTrailingBlock && b.noTrailingBlock)
    || (a.pipeSeparates && b.pipeSeparates) || (a.inPattern && b.inPattern)

/-- Whether an application may take a block as its last argument
(`ParseContext::allows_trailing_block`). -/
def allowsTrailingBlock (c : Context) : Bool := !c.inType && !c.noTrailingBlock

/-- The context between brackets: being in a type is all that is kept (`ParseContext::nested`). -/
def nested (c : Context) : Context := { none with inType := c.inType }

end Context

end Surface
