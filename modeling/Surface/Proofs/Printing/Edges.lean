import Surface.Proofs.Lexing.Spelled

/-!
# Edges of printed texts

Two texts may stand behind each other if the second starts with nothing that goes on with the first. An
edge says what that is: what may stand behind a word, behind a run of symbols or behind a whole
expression, and what an expression or an item may start with.

Results:
* `Edge`: what a text may start with.
* `Edge.stops`, `Edge.wordEnd`, `Edge.symbolEnd`, `Edge.apart`: what may stand behind a text.
* `Edge.fresh`, `Edge.item`: what a text may start with that stands behind another.
-/

namespace Surface

open Lexeme (HeadIn continuesWord isSymbol)

/-- What a text may start with. A text that starts with a blank or a newline is never refused. -/
structure Edge where
  admits : List Char → Prop
  blank : ∀ cs, admits (' ' :: cs)
  newline : ∀ cs, admits ('\n' :: cs)

namespace Edge

variable {A : Edge} {bars bars' dots dots' : Prop}

/-- Whatever one edge admits another does. -/
instance : LE Edge := ⟨fun A B => ∀ cs, A.admits cs → B.admits cs⟩

theorem refl (A : Edge) : A ≤ A := fun _ h => h

/-- Any text. -/
def any : Edge := ⟨fun _ => True, fun _ => trivial, fun _ => trivial⟩

theorem le_any (A : Edge) : A ≤ any := fun _ _ => trivial

/-- Texts that start with one of some characters. -/
def first (p : Char → Prop) (hb : p ' ') (hn : p '\n') : Edge where
  admits := HeadIn p
  blank _ c hc := by cases hc; exact hb
  newline _ c hc := by cases hc; exact hn

/-- An edge that admits what starts with a character. -/
def Takes (A : Edge) (c : Char) : Prop := ∀ rest, A.admits (c :: rest)

theorem any_takes (c : Char) : any.Takes c := fun _ => trivial

theorem first_takes {p : Char → Prop} {hb : p ' '} {hn : p '\n'} {c : Char} (h : p c) :
    (first p hb hn).Takes c := fun _ _ hc => by cases hc; exact h

/-! ## What stands behind a text -/

/-- Texts behind which a token stays apart, up to a bar and up to a dot. -/
def stops (bars dots : Prop) : Edge :=
  .first (fun c => continuesWord c = false ∧ (isSymbol c = true → c = '|' ∧ bars ∨ c = '.' ∧ dots))
    ⟨rfl, nofun⟩ ⟨rfl, nofun⟩

/-- Texts that go on with no word. -/
def wordEnd : Edge := .first (fun c => continuesWord c = false) rfl rfl

/-- Texts that start with no symbol. -/
def symbolEnd : Edge := .first (fun c => isSymbol c = false) rfl rfl

/-- What may follow whatever it is. -/
def apart : Edge := .stops False False

theorem stops_takes (p : Punct) : (stops bars dots).Takes p.char :=
  first_takes (by cases p <;> exact ⟨rfl, nofun⟩)

theorem stops_takes_dot (h : dots) : (stops bars dots).Takes '.' := fun _ _ hc => by
  cases hc
  exact ⟨rfl, fun _ => .inr ⟨rfl, h⟩⟩

theorem stops_takes_bar (h : bars) : (stops bars dots).Takes '|' := fun _ _ hc => by
  cases hc
  exact ⟨rfl, fun _ => .inl ⟨rfl, h⟩⟩

theorem stops_le_wordEnd : stops bars dots ≤ wordEnd := fun _ h c hc => (h c hc).1

theorem stops_le (hb : bars → bars') (hd : dots → dots') : stops bars dots ≤ stops bars' dots' :=
  fun _ hr c hc => (hr c hc).imp_right fun hs h =>
    (hs h).imp (And.imp_right hb) (And.imp_right hd)

theorem stops_le_symbolEnd (hb : ¬ bars) (hd : ¬ dots) : stops bars dots ≤ symbolEnd :=
  fun _ hr c hc => Bool.eq_false_iff.2 fun h =>
    ((hr c hc).2 h).elim (fun bar => hb bar.2) fun dot => hd dot.2

theorem apart_le_stops : apart ≤ stops bars dots := stops_le False.elim False.elim

theorem apart_le_symbolEnd : apart ≤ symbolEnd := stops_le_symbolEnd not_false not_false

/-! ## What a text starts with -/

/-- Texts that start with no hash and, where there are bars, with no symbol. -/
def fresh (bars : Prop) : Edge :=
  .first (fun c => c ≠ '#' ∧ (bars → isSymbol c = false)) ⟨by decide, fun _ => rfl⟩
    ⟨by decide, fun _ => rfl⟩

/-- Texts that start with no first line. -/
def item : Edge := ⟨fun cs => ∀ rest, cs ≠ '#' :: '!' :: rest, nofun, nofun⟩

theorem fresh_le_symbolEnd (h : bars) : fresh bars ≤ symbolEnd := fun _ hr c hc => (hr c hc).2 h

theorem fresh_takes {p : Punct} (h : p ≠ .hash) : (fresh bars).Takes p.char := by
  refine first_takes ⟨?_, fun _ => ?_⟩ <;> cases p <;> first | exact absurd rfl h | decide

theorem fresh_takes_dot (h : ¬ bars) : (fresh bars).Takes '.' :=
  first_takes ⟨by decide, fun hb => absurd hb h⟩

theorem fresh_takes_bar (h : ¬ bars) : (fresh bars).Takes '|' :=
  first_takes ⟨by decide, fun hb => absurd hb h⟩

theorem fresh_keyword (k : Keyword) (rest : List Char) :
    (fresh bars).admits (k.text.toList ++ rest) := by
  intro c hc
  cases k <;> cases hc <;> exact ⟨by decide, fun _ => rfl⟩

theorem fresh_le (h : bars' → bars) : fresh bars ≤ fresh bars' := fun _ hr c hc =>
  (hr c hc).imp_right fun hs hb => hs (h hb)

theorem fresh_le_item : fresh bars ≤ item := by
  rintro _ hr rest rfl
  exact (hr '#' rfl).1 rfl

end Edge

end Surface
