import Surface.Layout.Page

/-!
# Documents

A document says what is written on a page, without regard to how deep the page is indented.

* `Doc.write`: writes a document on a page.
* `Doc.render`: the text of a document on a blank page.
-/

namespace Surface

/-- What is written on a page. -/
inductive Doc
  | empty
  | text (s : String)
  | space
  | newline
  /-- A document written one level deeper. -/
  | nest (d : Doc)
  /-- One document behind another. -/
  | append (a b : Doc)

namespace Doc

instance : Append Doc := ⟨append⟩

/-- Documents one behind another. -/
def concat (ds : List Doc) : Doc := ds.foldr append empty

/-- Each document behind a space. -/
def spaced (ds : List Doc) : Doc := concat (ds.map fun d => space ++ d)

/-- Documents with commas between them (`Printer::comma_separated`). -/
def commas : List Doc → Doc
  | [] => empty
  | [d] => d
  | d :: ds => d ++ text ", " ++ commas ds

/-- Writes a document on a page. -/
def write : Doc → Page → Page
  | empty, p => p
  | text s, p => p.emit s
  | space, p => p.space
  | newline, p => p.newline
  | nest d, p => (d.write p.indent).dedent
  | append a b, p => b.write (a.write p)

/-- The text of a document on a page of its own. -/
def render (d : Doc) : String := (d.write .blank).finish

end Doc

end Surface
