import Surface.Grammar.Decl

/-!
# Reading files

A file is a sequence of items on lines of their own. An item that cannot be read becomes an
error item, and reading goes on at the next line.
-/

namespace Surface.Grammar

variable {ν : Type} [Naming ν]

/-- Where an item that was given up ends: with its line. -/
def itemBoundary : TagSet := {.lineBreak, .eof}

/-- The tags that start a declaration on their own (in `item_is_decl`). -/
def declOnlyTags : TagSet :=
  {.keyword .useKw, .keyword .classKw, .keyword .traitKw, .keyword .dataKw,
    .keyword .publicKw, .keyword .sealedKw, .keyword .privateKw, .keyword .internalKw,
    .punct .atSign, .punct .hash}

/-- Whether the next item is read as a declaration (`item_is_decl`). Where statements are admitted
as well, it is one if it starts with a word or mark of declarations, or is a name with an equals
sign outside all groups on its line. -/
def isDeclNext : ReaderOf ν Bool := do
  let dialect := (← read).dialect
  if !dialect.statements then return true
  else if !dialect.declarations then return false
  else if ← isNextIn declOnlyTags then return true
  else return (← isNameNext) && (← isAhead (.reserved .eq))

/-- An item, which must be all of its line (in `parse_item`). -/
def wholeItem (asDecl : Bool) (docsFrom : Nat) : ReaderOf ν (Item ν) := do
  let dialect := (← read).dialect
  let item ←
    if !dialect.declarations && !dialect.statements then absent .item
    else if asDecl then .decl <$> decl docsFrom
    else .stmt <$> stmt
  if ← isNextIn itemBoundary then return item else unexpected itemBoundary

/-- An item that was given up (in `parse_item`). -/
def errorItem (asDecl : Bool) (span : Span) : ReaderOf ν (Item ν) := do
  if asDecl then return .decl ⟨.error, [], [], span⟩
  else .stmt <$> newStmt span fun m => .error m

/-- An item, or an error item in its place (`parse_item`). -/
def item (docsFrom : Nat) : ReaderOf ν (Item ν) := do
  let start ← nextSpan
  let skips := (← cursor).skipsBreaks
  let asDecl ← isDeclNext
  orElse (wholeItem asDecl docsFrom) fun error => do
    errorItem asDecl (← recover error start skips itemBoundary)

/-- The items of a file and the line breaks behind each; documentation of the first starts
behind an offset, that of another behind the item before it (in `parse_file`). -/
def items (docsFrom : Nat) : ReaderOf ν (List (Item ν)) := do
  let (items, _) ← repeated ((#[] : Array (Item ν)), docsFrom) fun (items, docsFrom) => do
    if ← isNext .eof then return .done (items, docsFrom)
    else
      let item ← item docsFrom
      let stop := (← previousSpan).stop
      skipBreaks
      return .yield (items.push item, stop)
  return items.toList

/-- The first line of a file, if the dialect admits it; otherwise it is reported
(in `parse_file`). -/
def shebang (line : Option Shebang) : ReaderOf ν (Option Shebang) := do
  match line with
  | some l =>
    if (← read).dialect.shebang then return some l
    else
      modify fun s => { s with errors := s.errors.push ⟨.shebang, l.span, none⟩ }
      return none
  | none => return none

/-- A whole file (`parse_file`). -/
def file (line : Option Shebang) : ReaderOf ν (SourceFile ν) := do
  let line ← shebang line
  skipBreaks
  let items ← items ((line.map fun l => l.span.stop).getD 0)
  return ⟨line, items, ⟨0, (← nextSpan).stop⟩⟩

end Surface.Grammar
