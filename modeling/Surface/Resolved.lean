import Surface.Parsed
import Surface.Syntax.Renamed

/-!
# Looking up names

What has been lexed or parsed with numbers as names says the same as with the spellings that its own
name table holds for them.

* `Lexed.Held`: all names stand in the table.
* `Lexed.resolved`, `Parsed.resolved`: all names looked up.
-/

namespace Surface

variable {ν μ : Type}

/-- What has been lexed under other names. -/
def Lexed.map (f : ν → μ) (l : Lexed ν) : Lexed μ :=
  ⟨l.tokens.map f, l.comments.map f, l.shebang, l.names⟩

/-- What has been parsed under other names. -/
def Parsed.map (f : ν → μ) (p : Parsed ν) : Parsed μ :=
  ⟨p.file.map f, p.nodes.map f, p.names, p.comments.map f, p.errors⟩

/-- All names of what has been lexed have been given out by its own table. -/
structure Lexed.Held (l : Lexed Handle) : Prop where
  tokens : l.tokens.HeldBy l.names
  comments : l.comments.HeldBy l.names

/-- What has been lexed, with all names looked up. -/
def Lexed.resolved (l : Lexed Handle) : Lexed := l.map (Naming.spell l.names)

/-- What has been parsed, with all names looked up. -/
def Parsed.resolved (p : Parsed Handle) : Parsed := p.map (Naming.spell p.names)

end Surface
