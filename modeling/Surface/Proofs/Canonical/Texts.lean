import Surface.Proofs.Canonical.Nodes
import Surface.Proofs.Canonical.Solid
import Surface.Proofs.Printing.FirstLine

/-!
# Texts of words

A document spells words if its text, wherever it is written, is read as these words. The documents of
expressions, patterns and statements spell the words of the node if the details of the node keep apart.
Two texts may stand behind each other if the second starts with nothing that goes on with the first, as
said by the edge between them.

Results:
* `Edge.starts`, `Edge.ends`: what words may stand behind, and what may stand behind words.
* `Spells`, `Shows`, `Renders`: texts and documents that are read as signs and as words.
* `ExprAt.renders`, `StmtAt.renders`, `BlockAt.renders`, ...: the documents of nodes.
-/

namespace Surface

open Lexeme (signs Sign HeadIn Legible continuesWord isSymbol)
open Doc (commas concat spaced)

/-! ## The edges of words -/

theorem Word.runsOn_suffix {ws ws' : List Word} (h : ws' <:+ ws) (last : Word.runsOn ws' = true) :
    Word.runsOn ws = true := by
  obtain ⟨front, rfl⟩ := h
  unfold Word.runsOn at last ⊢
  rw [List.getLast?_append]
  cases hw : ws'.getLast? with
  | none =>
    rw [hw] at last
    cases last
  | some w =>
    rw [hw] at last
    exact last

namespace Edge

variable {ws ws' : List Word}

/-- What a text of words starts with. -/
def starts (ws : List Word) : Edge := .fresh (ws.head? ≠ some (.reserved .dotDot))

/-- What may stand behind a text of words. -/
def ends (ws : List Word) : Edge := .stops (Word.runsOn ws = false) False

theorem ends_takes (p : Punct) : (ends ws).Takes p.char := stops_takes p

theorem apart_le_ends : apart ≤ ends ws := apart_le_stops

theorem ends_le_of_suffix (h : ws' <:+ ws) : ends ws ≤ ends ws' := by
  refine stops_le (fun closed => Bool.eq_false_iff.2 fun last => ?_) id
  rw [Word.runsOn_suffix h last] at closed
  cases closed

theorem ends_append_le : ends (ws ++ ws') ≤ ends ws' := ends_le_of_suffix (List.suffix_append ws ws')

theorem fresh_le_starts : fresh True ≤ starts ws := fresh_le fun _ => trivial

theorem starts_le_fresh : starts ws ≤ fresh False := fresh_le False.elim

theorem starts_le_append : starts ws ≤ starts (ws ++ ws') := by
  refine fresh_le fun other => ?_
  cases ws with
  | nil => exact nofun
  | cons w ws => exact other

end Edge

/-! ## Texts between two edges -/

/-- A text is read as some signs whatever text follows that the second edge admits, and the first edge
admits it with that text behind it. -/
def Spells (A Z : Edge) (w : List Char) (ss : List Sign) : Prop :=
  ∀ rest, Z.admits rest → A.admits (w ++ rest) ∧ signs (w ++ rest) = ss ++ signs rest

namespace Spells

variable {A B Z : Edge} {w w' : List Char} {ss ss' : List Sign}

theorem nil (h : Z ≤ A) : Spells A Z [] [] := fun rest hr => ⟨h rest hr, rfl⟩

theorem append (h : Spells A B w ss) (h' : Spells B Z w' ss') : Spells A Z (w ++ w') (ss ++ ss') := by
  intro rest hr
  obtain ⟨edge', same'⟩ := h' rest hr
  obtain ⟨edge, same⟩ := h _ edge'
  rw [List.append_assoc, List.append_assoc, same, same']
  exact ⟨edge, rfl⟩

theorem left (h : Spells B Z w ss) (hA : B ≤ A) : Spells A Z w ss := fun rest hr =>
  (h rest hr).imp_left (hA _)

theorem right (h : Spells A B w ss) (hZ : Z ≤ B) : Spells A Z w ss := fun rest hr =>
  h rest (hZ rest hr)

theorem blank : Spells A Z [' '] [] := fun rest _ =>
  ⟨A.blank rest, Lexeme.signs_blank rfl (by simp)⟩

theorem newline : Spells A Z ['\n'] [.separator false] := fun rest _ =>
  ⟨A.newline rest, Lexeme.signs_newline rest⟩

theorem blanks (n : Nat) : Spells A A (List.replicate n ' ') [] := by
  induction n with
  | zero => exact nil A.refl
  | succ n ih => exact blank.append ih

theorem margin (p : Page) : Spells A A p.margin.toList [] := by
  unfold Page.margin
  split
  · rw [String.toList_ofList]
    exact blanks _
  · exact nil A.refl

/-- A token, between edges that keep what is around it apart. -/
theorem token {k : TokenKind} (h : Legible k) (hA : ∀ rest, A.admits (k.written ++ rest))
    (hZ : ∀ rest, Z.admits rest → HeadIn k.EndsBefore rest) : Spells A Z k.written [.token k] :=
  fun rest hr => ⟨hA rest, h rest (hZ rest hr)⟩

theorem punct (p : Punct) (hA : A.Takes p.char) : Spells A Z [p.char] [.token (.punct p)] :=
  token (k := .punct p) (Lexeme.legible_punct p) hA fun _ _ _ _ => trivial

theorem keyword (k : Keyword) (hA : ∀ rest, A.admits (k.text.toList ++ rest)) :
    Spells A .wordEnd k.text.toList [.token (.keyword k)] :=
  token (k := .keyword k) (Lexeme.legible_keyword k) hA fun _ h => h

theorem keyword_blank (k : Keyword) (hA : ∀ rest, A.admits (k.text.toList ++ rest)) :
    Spells A Z (k.text.toList ++ [' ']) [.token (.keyword k)] :=
  (keyword k hA).append blank

theorem reserved (r : Reserved) (hA : ∀ rest, A.admits (r.text.toList ++ rest)) :
    Spells A .symbolEnd r.text.toList [.token (.reserved r)] :=
  token (k := .reserved r) (Lexeme.legible_reserved r) hA fun _ h => h

theorem blank_append (h : Spells .any Z w ss) : Spells A Z (' ' :: w) ss := blank.append h

theorem punct_append (p : Punct) (hA : A.Takes p.char) (h : Spells .any Z w ss) :
    Spells A Z (p.char :: w) (.token (.punct p) :: ss) :=
  (punct p hA).append h

/-- A reserved run between blanks. -/
theorem spaced (r : Reserved) : Spells A Z (' ' :: (r.text.toList ++ [' '])) [.token (.reserved r)] :=
  blank_append ((reserved r (A := .any) fun _ => trivial).append blank)

end Spells

/-! ## Documents between two edges -/

/-- A document is read as some signs wherever on a page it is written. -/
def Shows (A Z : Edge) (d : Doc) (ss : List Sign) : Prop :=
  ∀ p : Page, ∃ w, (d.write p).text.toList = p.text.toList ++ w ∧ Spells A Z w ss

/-- A document is read as some words. -/
def Renders (A Z : Edge) (d : Doc) (ws : List Word) : Prop := Shows A Z d (ws.flatMap Word.signs)

namespace Shows

variable {A B Z : Edge} {d d' : Doc} {ss ss' : List Sign}

theorem text {s : String} (h : Spells A Z s.toList ss) : Shows A Z (.text s) ss := by
  intro p
  show ∃ w, (p.emit s).text.toList = _ ∧ _
  unfold Page.emit
  split
  · next none =>
    refine ⟨[], (List.append_nil _).symm, ?_⟩
    rwa [String.isEmpty_iff.1 none] at h
  · refine ⟨p.margin.toList ++ s.toList, ?_, (Spells.margin p).append h⟩
    rw [String.toList_append, String.toList_append, List.append_assoc]

theorem append (h : Shows A B d ss) (h' : Shows B Z d' ss') : Shows A Z (d ++ d') (ss ++ ss') := by
  intro p
  obtain ⟨w, text, spells⟩ := h p
  obtain ⟨w', text', spells'⟩ := h' (d.write p)
  refine ⟨w ++ w', ?_, spells.append spells'⟩
  show (d'.write (d.write p)).text.toList = _
  rw [text', text, List.append_assoc]

theorem left (h : Shows B Z d ss) (hA : B ≤ A) : Shows A Z d ss := fun p =>
  (h p).imp fun _ => And.imp_right fun spells => spells.left hA

theorem right (h : Shows A B d ss) (hZ : Z ≤ B) : Shows A Z d ss := fun p =>
  (h p).imp fun _ => And.imp_right fun spells => spells.right hZ

end Shows

namespace Renders

variable {A B C Z : Edge} {d d' m : Doc} {ws ws' : List Word} {w : Word} {k k' : TokenKind} {s : String}

theorem empty (h : Z ≤ A) : Renders A Z .empty [] := fun _ => ⟨[], (List.append_nil _).symm, .nil h⟩

theorem space : Renders A Z .space [] := fun _ => ⟨[' '], String.toList_append, .blank⟩

theorem newline : Renders A Z .newline [.lineBreak] := fun _ => ⟨['\n'], String.toList_append, .newline⟩

theorem nest (h : Renders A Z d ws) : Renders A Z (.nest d) ws := fun p => h p.indent

theorem append (h : Renders A B d ws) (h' : Renders B Z d' ws') : Renders A Z (d ++ d') (ws ++ ws') := by
  unfold Renders
  rw [List.flatMap_append]
  exact Shows.append h h'

theorem left (h : Renders B Z d ws) (hA : B ≤ A) : Renders A Z d ws := Shows.left h hA

theorem right (h : Renders A B d ws) (hZ : Z ≤ B) : Renders A Z d ws := Shows.right h hZ

/-- A text of one word. -/
theorem word (hk : k ≠ .lineBreak) (h : Spells A Z s.toList [.token k]) :
    Renders A Z (.text s) [.token k] := by
  unfold Renders
  rw [List.flatMap_singleton, Word.signs_token hk]
  exact .text h

/-- A text of two words. -/
theorem pair (hk : k ≠ .lineBreak ∧ k' ≠ .lineBreak) (h : Spells A Z s.toList [.token k, .token k']) :
    Renders A Z (.text s) [.token k, .token k'] := by
  unfold Renders
  rw [List.flatMap_cons, List.flatMap_singleton, Word.signs_token hk.1, Word.signs_token hk.2]
  exact .text h

/-- A document behind another one. -/
theorem behind (h : Renders A B d ws) (h' : Renders B (.ends ws') d' ws') :
    Renders A (.ends (ws ++ ws')) (d ++ d') (ws ++ ws') :=
  h.append (h'.right Edge.ends_append_le)

/-- A word between two documents. -/
theorem between (h : Renders A B d ws) (hm : Renders B C m [w]) (h' : Renders C (.ends ws') d' ws') :
    Renders A (.ends (ws ++ w :: ws')) (d ++ m ++ d') (ws ++ w :: ws') := by
  have all := (h.append hm).behind h'
  rwa [List.append_assoc] at all

/-- A space between two documents. -/
theorem apart (h : Renders A B d ws) (h' : Renders C Z d' ws') :
    Renders A Z (d ++ .space ++ d') (ws ++ ws') := by
  have all := (h.append space).append h'
  rwa [List.append_nil] at all

theorem apart_behind (h : Renders A B d ws) (h' : Renders C (.ends ws') d' ws') :
    Renders A (.ends (ws ++ ws')) (d ++ .space ++ d') (ws ++ ws') :=
  h.apart (h'.right Edge.ends_append_le)

/-- Documents with commas between them. -/
theorem commas {ds : List Doc} {wss : List (List Word)} (hZ : Z.Takes ',')
    (h : List.Forall₂ (Renders A Z) ds wss) (some : ds ≠ []) :
    Renders A Z (commas ds) (Word.commas wss) := by
  induction h with
  | nil => exact absurd rfl some
  | @cons d ws ds wss first rest ih =>
    cases rest with
    | nil => exact first
    | cons _ _ =>
      have comma : Renders Z A (.text ", ") [.punct .comma] :=
        .word (TokenKind.ne_of_tag Tag.noConfusion) (.punct_append .comma hZ .blank)
      have all := (first.append comma).append (ih (List.cons_ne_nil _ _))
      rwa [List.append_assoc] at all

/-- Documents with commas between them between brackets. -/
theorem enclosed {p : Punct} {t : String} {ds : List Doc} {wss : List (List Word)}
    (hs : Renders A .any (.text s) [.punct p]) (h : List.Forall₂ (Renders C .apart) ds wss)
    (ht : Renders .apart Z (.text t) ws) :
    Renders A Z (.text s ++ Doc.commas ds ++ .text t) (.punct p :: Word.commas wss ++ ws) := by
  refine append ?_ ht
  cases h with
  | nil => exact (hs.right (Edge.le_any .apart)).append (empty (Edge.refl _))
  | cons first rest =>
    exact (hs.right (Edge.le_any C)).append
      (commas (Edge.stops_takes .comma) (.cons first rest) (List.cons_ne_nil _ _))

/-- Documents that may stand beside bars, between brackets. -/
theorem listed {ds : List Doc} {wss : List (List Word)}
    (h : List.Forall₂ (fun d ws => Renders (.starts ws) (.ends ws) d ws) ds wss) :
    List.Forall₂ (Renders (.fresh False) .apart) ds wss :=
  h.imp fun _ _ h => (h.left Edge.starts_le_fresh).right Edge.apart_le_ends

/-- Documents with commas between them, where the first and the last stand beside bars. -/
theorem commas_bars {ds : List Doc} {wss : List (List Word)}
    (h : List.Forall₂ (fun d ws => Renders (.starts ws) (.ends ws) d ws) ds wss) (some : ds ≠ []) :
    Renders (.starts (Word.commas wss)) (.ends (Word.commas wss)) (Doc.commas ds) (Word.commas wss) := by
  induction h with
  | nil => exact absurd rfl some
  | @cons d ws ds wss first rest ih =>
    cases rest with
    | nil => exact first
    | cons _ _ =>
      have comma {B : Edge} : Renders (.ends ws) B (.text ", ") [.punct .comma] :=
        .word (TokenKind.ne_of_tag Tag.noConfusion) (.punct_append .comma (Edge.ends_takes _) .blank)
      exact (first.between comma (ih (List.cons_ne_nil _ _))).left Edge.starts_le_append

end Renders

/-- A document is read as some words behind any others, if there are such words at all. -/
def Extends (d : Doc) (ws : List Word) : Prop := ∀ front, Renders (.ends front) (.ends (front ++ ws)) d ws

namespace Extends

variable {B : Edge} {d : Doc} {ds : List Doc} {ws ws' : List Word}

theorem empty : Extends .empty [] := fun front => by
  rw [List.append_nil]
  exact .empty (Edge.refl _)

theorem of_renders (h : ∀ {A}, Renders A (.ends ws) d ws) : Extends d ws :=
  fun _ => h.right Edge.ends_append_le

theorem spaced_nil : Extends (spaced []) [] := empty

theorem spaced_cons (h : Renders B (.ends ws) d ws) (h' : Extends (spaced ds) ws') :
    Extends (spaced (d :: ds)) (ws ++ ws') := by
  intro front
  rw [Doc.spaced_cons, ← List.append_assoc]
  exact (Renders.space.append (h.right Edge.ends_append_le)).append (h' (front ++ ws))

theorem spaced_one (h : Renders B (.ends ws) d ws) : Extends (spaced [d]) ws := by
  have all := spaced_cons h spaced_nil
  rwa [List.append_nil] at all

end Extends

/-- A document with what may follow it. -/
theorem Renders.extend {A : Edge} {d d' : Doc} {ws ws' : List Word} (h : Renders A (.ends ws) d ws)
    (h' : Extends d' ws') : Renders A (.ends (ws ++ ws')) (d ++ d') (ws ++ ws') := h.append (h' ws)

namespace Grammar

variable {S : Setting} {A B Z : Edge} {b : Bool} {i j k l : Nat} {d : Doc} {ds : List Doc}
  {ws ws' : List Word} {wss : List (List Word)}

/-! ## Names, paths and literals -/

theorem nameKind_of_written {k : TokenKind} {n : String} (hn : k.name? = some n)
    (h : (Layout.nameText n).toList = k.written) : nameKind n = k := by
  have longer : n.toList ≠ Lexeme.backtick :: n.toList := fun e => by
    have length := congrArg List.length e
    rw [List.length_cons] at length
    omega
  unfold Layout.nameText at h
  unfold nameKind
  cases k <;> cases hn
  · split
    · rfl
    · next other =>
      rw [if_neg other, String.toList_append] at h
      exact absurd h.symm longer
  · split
    · next name =>
      rw [if_pos name] at h
      exact absurd h longer
    · rfl

theorem Setting.NameAt.kind_eq {x : Ident} (s : S.Source) (h : S.NameAt i x) :
    S.kind i = nameKind x.name := (nameKind_of_written h.1 (s.named i _ h.1)).symm

theorem Setting.NameAt.spells {x : Ident} (s : S.Source) (h : S.NameAt i x) (quote : x.name ≠ "'") :
    let plain := (nameKind x.name).tag ≠ .symbolIdent
    Spells (.fresh True) (.stops plain plain) (Layout.nameText x.name).toList
      [.token (nameKind x.name)] := by
  intro plain
  obtain ⟨legible, apart⟩ := h.legible s quote
  have fresh := nameText_fresh x.name
  have kind := h.kind_eq s
  rw [← S.tag_kind, kind] at apart
  rw [kind] at legible
  rw [s.named i _ h.1, kind] at fresh ⊢
  exact .token legible fresh apart

theorem runsOn_name (n : String) (h : Word.runsOn [.token (nameKind n)] = false) :
    (nameKind n).tag ≠ .symbolIdent := by
  intro symbols
  have last : Word.runsOn [.token (nameKind n)] = ((nameKind n).tag == .symbolIdent
      || (nameKind n).tag == .reserved .dotDot) := rfl
  rw [last, symbols] at h
  cases h

/-- A name with what follows it in a path. -/
theorem SegmentsAt.spells {x : Ident} {xs : List Ident} {m : Nat} (s : S.Source) (hx : S.NameAt m x)
    (h : SegmentsAt S b i xs j) (hd : Detail.Apart (.path (Path.names ⟨x, xs⟩))) :
    Spells (.fresh True) (.ends (Path.words ⟨x, xs⟩))
      ((Layout.nameText x.name).toList ++ xs.flatMap fun y => '.' :: (Layout.nameText y.name).toList)
      ((Path.words ⟨x, xs⟩).flatMap Word.signs) := by
  induction h generalizing x m with
  | stop _ =>
    have quote : x.name ≠ "'" := fun e => hd.1 (e ▸ List.mem_cons_self)
    have last := (hx.spells s quote).right (Edge.stops_le (runsOn_name x.name) False.elim)
    have word : (Path.words ⟨x, []⟩).flatMap Word.signs = [.token (nameKind x.name)] := by
      rw [Path.words, List.flatMap_nil, List.flatMap_singleton, Word.signs_token (nameKind_ne _)]
    rwa [List.flatMap_nil, List.append_nil, word]
  | @more _ y ys _ _ name _ ih =>
    obtain ⟨quotes, plains⟩ := hd
    obtain ⟨quote, quotes⟩ := not_or.1 (mt List.mem_cons.2 quotes)
    obtain ⟨plain, plains⟩ := List.forall_mem_cons.1 plains
    have dot {bars : Prop} : Spells (.stops bars ((nameKind x.name).tag ≠ .symbolIdent)) (.fresh True)
        ['.'] [.token (.reserved .dot)] :=
      .token (k := .reserved .dot) (Lexeme.legible_reserved .dot) (Edge.stops_takes_dot plain)
        (Edge.fresh_le_symbolEnd trivial)
    have suffix : Path.words ⟨y, ys⟩ <:+ Path.words ⟨x, y :: ys⟩ := ⟨[_, _], rfl⟩
    have rest := (ih name ⟨quotes, plains⟩).right (Edge.ends_le_of_suffix suffix)
    have all := (hx.spells s (Ne.symm quote)).append (dot.append rest)
    rwa [← Word.signs_token (nameKind_ne x.name)] at all

theorem PathAt.renders {q : Path} (s : S.Source) (h : PathAt S b i q j) (hd : Detail.Apart (.path q.names)) :
    Renders (.fresh True) (.ends q.words) (Layout.path q) q.words := by
  obtain ⟨x, xs⟩ := q
  refine Shows.text ?_
  rw [toList_pathText]
  exact h.tail.spells s h.head hd

/-- A name that stands alone. -/
theorem Setting.NameAt.renders {x : Ident} (s : S.Source) (h : S.NameAt i x)
    (hd : Detail.Apart (.path [x.name])) : Renders (.fresh True) (.ends [.token (nameKind x.name)])
      (Layout.name x.name) [.token (nameKind x.name)] := by
  have quote : x.name ≠ "'" := fun e => hd.1 (e ▸ List.mem_cons_self)
  exact .word (nameKind_ne _) ((h.spells s quote).right (Edge.stops_le (runsOn_name x.name) False.elim))

theorem kind_of_literal? {k : TokenKind} {v : Literal} (h : k.literal? = some v) :
    v.kind = k ∧ k ≠ .lineBreak := by
  cases k <;> cases h <;> exact ⟨rfl, (TokenKind.ne_of_tag Tag.noConfusion)⟩

theorem literal_renders {v : Literal} (s : S.Source) (h : (S.kind i).literal? = some v) :
    Renders (.fresh True) (.ends [.token v.kind]) (Layout.literal v) [.token v.kind] := by
  obtain ⟨legible, fresh, apart⟩ := literal_legible s h
  obtain ⟨kind, line⟩ := kind_of_literal? h
  rw [kind]
  refine .word line ?_
  rw [literalText_written h]
  exact (Spells.token legible fresh apart).right (Edge.stops_le (fun _ => trivial) id)

/-! ## Patterns -/

/-- Two dots stay apart from what follows unless it is a bar. -/
theorem dotDot_renders : Renders (.starts [.reserved .dotDot]) (.ends [.reserved .dotDot]) (.text "..")
    [.reserved .dotDot] := by
  have bar : ¬ Word.runsOn [.reserved .dotDot] = false := Bool.noConfusion
  have first : (Edge.starts [.reserved .dotDot]).Takes '.' := Edge.fresh_takes_dot fun other => other rfl
  exact .word (TokenKind.ne_of_tag Tag.noConfusion) (.token (k := .reserved .dotDot) (Lexeme.legible_reserved .dotDot)
    (fun _ => first _) (Edge.stops_le_symbolEnd bar not_false))

/-- The parentheses around an argument. -/
theorem parenthesizedIf_renders {c : Bool} (h : Renders (.starts ws) (.ends ws) d ws) :
    Renders (.fresh False) (.ends (Word.parenthesizedIf c ws)) (parenthesizedIf c d)
      (Word.parenthesizedIf c ws) := by
  unfold Surface.parenthesizedIf Word.parenthesizedIf
  split
  · have opens : Renders (.fresh False) (.starts ws) (.text "(") [.punct .openParen] :=
      .word (TokenKind.ne_of_tag Tag.noConfusion) (.punct .openParen (Edge.fresh_takes (by decide)))
    have closes {Z : Edge} : Renders (.ends ws) Z (.text ")") [.punct .closeParen] :=
      .word (TokenKind.ne_of_tag Tag.noConfusion) (.punct .closeParen (Edge.ends_takes _))
    exact (opens.append h).append closes
  · exact h.left Edge.starts_le_fresh

mutual

theorem AtomAt.renders (s : S.Source) {b i q j} : AtomAt S b i q j → (∀ x ∈ q.details, x.Apart) →
    Renders (.starts q.words) (.ends q.words) q.doc q.words
  | .literal hv _, _ => (literal_renders s hv).left Edge.fresh_le_starts
  | .path h _, hd =>
    .left (.extend (h.renders s (List.forall_mem_cons.1 hd).1) .spaced_nil) Edge.fresh_le_starts
  | .rest _ _, _ => dotDot_renders
  | .group _ hp _, hd => hp.renders s hd

theorem PatternAt.renders (s : S.Source) {b i q j} : PatternAt S b i q j → (∀ x ∈ q.details, x.Apart) →
    Renders (.starts q.words) (.ends q.words) q.doc q.words
  | .cons h hs _, hd => by
    obtain ⟨name, args⟩ := List.forall_mem_cons.1 hd
    exact .left (.extend (h.renders s name) (hs.renders s args)) Edge.fresh_le_starts
  | .atom _ h, hd => h.renders s hd

theorem PatternArgsAt.renders (s : S.Source) {b i ps j} : PatternArgsAt S b i ps j →
    (∀ x ∈ Pattern.allDetails ps, x.Apart) → Extends (spaced (Pattern.argDocs ps)) (Pattern.argWords ps)
  | .stop _, _ => .spaced_nil
  | .more h hs, hd => by
    obtain ⟨first, rest⟩ := List.forall_mem_append.1 hd
    exact .spaced_cons (parenthesizedIf_renders (h.renders s first)) (hs.renders s rest)

end

/-! ## Fixed texts -/

/-- A reserved run between blanks. -/
theorem spaced_renders (r : Reserved) {s : String} (hs : s.toList = ' ' :: (r.text.toList ++ [' '])) :
    Renders A Z (.text s) [.reserved r] :=
  .word (TokenKind.ne_of_tag Tag.noConfusion) (by rw [hs]; exact .spaced r)

/-- A keyword before a blank, where an expression may start. -/
theorem keyword_renders (k : Keyword) {s : String} (hs : s.toList = k.text.toList ++ [' ']) :
    Renders (.fresh False) Z (.text s) [.keyword k] :=
  .word (TokenKind.ne_of_tag Tag.noConfusion) (by rw [hs]; exact .keyword_blank k (Edge.fresh_keyword k))

/-- A keyword between blanks. -/
theorem spaced_keyword_renders (k : Keyword) {s : String}
    (hs : s.toList = ' ' :: (k.text.toList ++ [' '])) : Renders A Z (.text s) [.keyword k] :=
  .word (TokenKind.ne_of_tag Tag.noConfusion) (by rw [hs]; exact .blank_append (.keyword_blank k fun _ => trivial))

theorem return_renders : Renders (.fresh False) (.ends [.keyword .returnKw]) (.text "return")
    [.keyword .returnKw] :=
  .word (TokenKind.ne_of_tag Tag.noConfusion)
    ((Spells.keyword .returnKw (Edge.fresh_keyword _)).right Edge.stops_le_wordEnd)

/-- A colon between blanks. -/
theorem spaced_colon_renders : Renders A Z (.text " : ") [.punct .colon] :=
  .word (TokenKind.ne_of_tag Tag.noConfusion) (.blank_append (.punct_append .colon (Edge.any_takes _) .blank))

/-- A colon behind a name or a pattern. -/
theorem colon_renders : Renders (.ends ws) Z (.text ": ") [.punct .colon] :=
  .word (TokenKind.ne_of_tag Tag.noConfusion) (.punct_append .colon (Edge.ends_takes _) .blank)

/-- A bracket that closes, or a comma. -/
theorem close_renders {bars dots : Prop} (q : Punct) {s : String} (hs : s.toList = [q.char]) :
    Renders (.stops bars dots) Z (.text s) [.punct q] :=
  .word (TokenKind.ne_of_tag Tag.noConfusion) (by rw [hs]; exact .punct q (Edge.stops_takes _))

/-- A bracket that opens. -/
theorem open_renders {q : Punct} (hq : q ≠ .hash) {s : String} (hs : s.toList = [q.char]) :
    Renders (.fresh False) Z (.text s) [.punct q] :=
  .word (TokenKind.ne_of_tag Tag.noConfusion) (by rw [hs]; exact .punct q (Edge.fresh_takes hq))

/-! ## Operators, functions and braces -/

theorem operator_renders {c : Context} {symbols : String} (s : S.Source)
    (h : S.operator? c i = some symbols) :
    Renders .any .symbolEnd (.text symbols) [.token (operatorKind symbols)] := by
  have kind := s.kind_of_operator h
  have tag := Setting.tag_of_operator h
  have legible : Legible (S.kind i) := by
    have ne {t : Tag} (ht : t ≠ .operator ∧ t ≠ .reserved .pipe) : S.tag i ≠ t := by
      rintro rfl
      exact tag.elim ht.1 ht.2
    refine s.legible i (ne (by decide)) (ne (by decide)) (ne (by decide)) fun quote => ?_
    exact ne (t := .ident) (by decide) (by rw [← S.tag_kind, quote]; rfl)
  rw [kind] at legible
  unfold operatorKind at legible ⊢
  split
  · next bar =>
    rw [if_pos bar] at legible
    refine .word (TokenKind.ne_of_tag Tag.noConfusion) ?_
    rw [bar]
    exact .token legible (fun _ => trivial) fun _ h => h
  · next other =>
    rw [if_neg other] at legible
    exact .word (TokenKind.ne_of_tag Tag.noConfusion) (.token legible (fun _ => trivial) fun _ h => h)

/-- The bars of a function without parameters are one operator. -/
theorem thunk_renders : Renders (.fresh False) .any (.text "|" ++ commas [] ++ .text "| ")
    [.token (.operator "||")] := by
  intro p
  refine ⟨p.margin.toList ++ ['|', '|', ' '], ?_, ?_⟩
  · have first : p.emit "|" = { p with text := p.text ++ p.margin ++ "|", atLineStart := false } := rfl
    show ((p.emit "|").emit "| ").text.toList = _
    rw [text_emit (by rw [first]), first]
    simp
  · have legible : Legible (.operator "||") := .symbols rfl rfl (fun _ h => h) rfl rfl rfl
    have bars : Spells (.fresh False) .symbolEnd ['|', '|'] [.token (.operator "||")] :=
      .token legible (fun _ => Edge.fresh_takes_bar not_false _) fun _ h => h
    exact (Spells.margin p).append (bars.append .blank)

/-- The bars and parameters of a function. -/
theorem lambda_renders {p : Param} {ps : List Param}
    (h : List.Forall₂ (fun d ws => Renders (.starts ws) (.ends ws) d ws) (Param.docs (p :: ps))
      (Param.wordLists (p :: ps))) (hd : Detail.Apart (.function (p :: ps))) :
    Renders (.fresh False) .any (.text "|" ++ commas (Param.docs (p :: ps)) ++ .text "| ")
      (.reserved .pipe :: Word.commas (Param.wordLists (p :: ps)) ++ [.reserved .pipe]) := by
  have opens : Renders (.fresh False) (.starts (Word.commas (Param.wordLists (p :: ps)))) (.text "|")
      [.reserved .pipe] :=
    .word (TokenKind.ne_of_tag Tag.noConfusion) ((Spells.reserved .pipe fun _ =>
      Edge.fresh_takes_bar not_false _).right (Edge.fresh_le_symbolEnd hd.1))
  have closes : Renders (.ends (Word.commas (Param.wordLists (p :: ps)))) .any (.text "| ")
      [.reserved .pipe] :=
    .word (TokenKind.ne_of_tag Tag.noConfusion)
      ((Spells.reserved .pipe fun _ => Edge.stops_takes_bar hd.2 _).append .blank)
  exact (opens.append (.commas_bars h (List.cons_ne_nil _ _))).append closes

/-- Lines, each behind a newline. -/
theorem lines_render (h : List.Forall₂ (Renders .any .apart) ds wss) :
    Renders .apart .apart (concat (ds.map fun d => .newline ++ d))
      (wss.flatMap fun ws => .lineBreak :: ws) := by
  induction h with
  | nil => exact .empty (Edge.refl _)
  | cons first _ ih =>
    rw [List.map_cons, Doc.concat_cons, List.flatMap_cons]
    exact (Renders.newline.append first).append ih

/-- Lines between braces. -/
theorem braced_renders {isEmpty : Bool} (h : List.Forall₂ (Renders .any .apart) ds wss) :
    Renders .any Z (braced isEmpty ds) (Word.braced isEmpty wss) := by
  have opens : Renders .any .apart (.text "\x7b") [.punct .openBrace] :=
    .word (TokenKind.ne_of_tag Tag.noConfusion) (.punct .openBrace (Edge.any_takes _))
  have closes {A : Edge} (hA : A.Takes Punct.closeBrace.char) :
      Renders A Z (.text "\x7d") [.punct .closeBrace] :=
    .word (TokenKind.ne_of_tag Tag.noConfusion) (.punct .closeBrace hA)
  unfold Surface.braced Word.braced
  split
  · exact .pair ⟨(TokenKind.ne_of_tag Tag.noConfusion), (TokenKind.ne_of_tag Tag.noConfusion)⟩
      (.punct_append .openBrace (Edge.any_takes _) (.punct .closeBrace (Edge.any_takes _)))
  · have all := ((opens.append (lines_render h).nest).append .newline).append (closes (Edge.any_takes _))
    rwa [List.append_assoc _ [Word.lineBreak]] at all

/-- Words between brackets before an arrow, and what stands behind it. -/
theorem binder_renders {q q' : Punct} {d' : Doc} (hq : q ≠ .hash) {s t : String} (hs : s.toList = [q.char])
    (ht : t.toList = q'.char :: ' ' :: (Reserved.arrow.text.toList ++ [' ']))
    (h : List.Forall₂ (Renders (.fresh False) .apart) ds wss)
    (h' : Renders (.fresh False) (.ends ws) d' ws) :
    Renders (.fresh False) (.ends (.punct q :: Word.commas wss ++ .punct q' :: .reserved .arrow :: ws))
      (.text s ++ commas ds ++ .text t ++ d')
      (.punct q :: Word.commas wss ++ .punct q' :: .reserved .arrow :: ws) := by
  have closes : Renders .apart (.fresh False) (.text t) [.punct q', .reserved .arrow] :=
    .pair ⟨(TokenKind.ne_of_tag Tag.noConfusion), (TokenKind.ne_of_tag Tag.noConfusion)⟩
      (by rw [ht]; exact .punct_append q' (Edge.stops_takes _) (.spaced .arrow))
  have front := Renders.enclosed (open_renders hq hs) h closes
  have all := front.behind h'
  rwa [List.append_assoc] at all

/-! ## Expressions and statements -/

mutual

theorem ExprAt.renders (s : S.Source) {c b i e j} : ExprAt S c b i e j → (∀ x ∈ e.details, x.Apart) →
    Renders (.fresh False) (.ends e.words) e.doc e.words
  | .binary _ h _ _ _, hd => h.renders s hd
  | .arrow _ h _ h' _, hd => by
    obtain ⟨first, second⟩ := List.forall_mem_append.1 (List.forall_mem_cons.1 hd).2
    exact .between (h.renders s first) (spaced_renders .arrow rfl) (h'.renders s second)
  | .ascription _ h _ h' _, hd => by
    obtain ⟨first, second⟩ := List.forall_mem_append.1 hd
    exact .between (h.renders s first) spaced_colon_renders (h'.renders s second)
  | .pi _ _ h _ _ h' _, hd => by
    obtain ⟨first, second⟩ := List.forall_mem_append.1 hd
    exact binder_renders (by decide) rfl rfl (Renders.listed (h.renders s first)) (h'.renders s second)
  | .sigma _ _ h _ _ h' _, hd => by
    obtain ⟨first, second⟩ := List.forall_mem_append.1 hd
    exact binder_renders (by decide) rfl rfl (Renders.listed (h.renders s first)) (h'.renders s second)

theorem ChainAt.renders (s : S.Source) {c b i e j} : ChainAt S c b i e j → (∀ x ∈ e.details, x.Apart) →
    Renders (.fresh False) (.ends e.words) e.doc e.words
  | .one h, hd => h.renders s hd
  | .more h hk _ h' _, hd => by
    obtain ⟨first, second⟩ := List.forall_mem_append.1 hd
    have front := (h.renders s first).apart (operator_renders s hk)
    have all := front.apart_behind (h'.renders s second)
    rwa [List.append_assoc] at all

theorem ApplicationAt.renders (s : S.Source) {c b i e j} : ApplicationAt S c b i e j →
    (∀ x ∈ e.details, x.Apart) → Renders (.fresh False) (.ends e.words) e.doc e.words
  | .bare h _, hd => h.renders s hd
  | .types _ h h' _, hd => by
    obtain ⟨first, second⟩ := List.forall_mem_append.1 hd
    exact .extend (h.renders s first) (h'.renders s second)
  | .plain _ h h' _ _, hd => by
    obtain ⟨first, others⟩ := List.forall_mem_append.1 hd
    exact .extend (.extend (h.renders s first) (h'.renders s (List.forall_mem_append.1 others).1))
      .spaced_nil
  | .block _ h h' _ h'' _, hd => by
    obtain ⟨first, others⟩ := List.forall_mem_append.1 hd
    obtain ⟨second, third⟩ := List.forall_mem_append.1 others
    exact .extend (.extend (h.renders s first) (h'.renders s second)) (.spaced_one (h''.renders s third))

theorem ArgsAt.renders (s : S.Source) {c b i es j} : ArgsAt S c b i es j →
    (∀ x ∈ Expr.allDetails es, x.Apart) → Extends (spaced (Expr.docs es)) (Expr.wordLists es).flatten
  | .stop _, _ => .spaced_nil
  | .more _ h h', hd => by
    obtain ⟨first, rest⟩ := List.forall_mem_append.1 hd
    exact .spaced_cons (h.renders s first) (h'.renders s rest)

theorem PrimaryAt.renders (s : S.Source) {c b i e j} : PrimaryAt S c b i e j →
    (∀ x ∈ e.details, x.Apart) → Renders (.fresh False) (.ends e.words) e.doc e.words
  | .literal hv _, _ => (literal_renders s hv).left (Edge.fresh_le False.elim)
  | .name h _, hd => (h.head.renders s (List.forall_mem_singleton.1 hd)).left (Edge.fresh_le False.elim)
  | .path h _, hd => (h.renders s (List.forall_mem_singleton.1 hd)).left (Edge.fresh_le False.elim)
  | @PrimaryAt.tuple _ _ _ _ _ _ tr _ _ h _ _, hd => by
    have closes {Z : Edge} : Renders .apart Z (.text (if tr then ",)" else ")"))
        ((if tr then [.punct .comma] else []) ++ [.punct .closeParen]) := by
      cases tr with
      | true =>
        exact .pair ⟨(TokenKind.ne_of_tag Tag.noConfusion), (TokenKind.ne_of_tag Tag.noConfusion)⟩
          (.punct_append .comma (Edge.stops_takes _) (.punct .closeParen (Edge.any_takes _)))
      | false => exact close_renders .closeParen rfl
    have opens : Renders (.fresh False) .any (.text "(") [.punct .openParen] :=
      open_renders (by decide) rfl
    have all {Z : Edge} := Renders.enclosed opens (h.renders s hd) (closes (Z := Z))
    rw [← List.append_assoc] at all
    exact all
  | .array _ h _ _, hd =>
    .enclosed (open_renders (q := .openBracket) (by decide) rfl) (h.renders s hd)
      (close_renders .closeBracket rfl)
  | .conditional _ h h' _ h'' _, hd => by
    obtain ⟨first, others⟩ := List.forall_mem_append.1 hd
    obtain ⟨second, third⟩ := List.forall_mem_append.1 others
    exact .between (.behind (.behind (keyword_renders .ifKw rfl) (h.renders s first))
      (h'.renders s second)) (spaced_keyword_renders .elseKw rfl) (h''.renders s third)
  | .matchOn _ h _ h' _ _, hd => by
    obtain ⟨first, second⟩ := List.forall_mem_append.1 hd
    exact .apart (.behind (keyword_renders .matchKw rfl) (h.renders s first))
      (braced_renders (h'.renders s second))
  | .returns _ _ h _, hd => .extend return_renders (.spaced_one (h.renders s hd))
  | .returnsNothing _ _ _, _ => .extend return_renders .spaced_nil
  | @PrimaryAt.lambda _ _ _ _ _ ps _ _ _ _ _ h _ h' _, hd => by
    obtain ⟨bars, others⟩ := List.forall_mem_cons.1 hd
    obtain ⟨first, second⟩ := List.forall_mem_append.1 others
    have params := h.renders s first
    have body := (h'.renders s second).left (Edge.le_any _)
    cases ps with
    | nil => exact thunk_renders.behind body
    | cons a as =>
      have all := (lambda_renders params bars).behind body
      rwa [List.append_assoc] at all
  | .thunk _ h _, hd => by
    have body := h.renders s (List.forall_mem_cons.1 hd).2
    exact thunk_renders.behind (body.left (Edge.le_any _))

theorem ExprsAt.renders (s : S.Source) {t c b i es tr j} : ExprsAt S t c b i es tr j →
    (∀ x ∈ Expr.allDetails es, x.Apart) →
      List.Forall₂ (Renders (.fresh False) .apart) (Expr.docs es) (Expr.wordLists es)
  | .none _, _ => .nil
  | .last h _ _, hd =>
    .cons ((h.renders s (List.forall_mem_append.1 hd).1).right Edge.apart_le_ends) .nil
  | .more h _ h', hd => by
    obtain ⟨first, rest⟩ := List.forall_mem_append.1 hd
    exact .cons ((h.renders s first).right Edge.apart_le_ends) (h'.renders s rest)

theorem ParamsAt.renders (s : S.Source) {t c b i ps tr j} : ParamsAt S t c b i ps tr j →
    (∀ x ∈ Param.allDetails ps, x.Apart) →
      List.Forall₂ (fun d ws => Renders (.starts ws) (.ends ws) d ws) (Param.docs ps) (Param.wordLists ps)
  | .none _, _ => .nil
  | .last h _ _, hd => .cons (h.renders s (List.forall_mem_append.1 hd).1) .nil
  | .more h _ h', hd => by
    obtain ⟨first, rest⟩ := List.forall_mem_append.1 hd
    exact .cons (h.renders s first) (h'.renders s rest)

theorem ParamAt.renders (s : S.Source) {c b i a j} : ParamAt S c b i a j → (∀ x ∈ a.details, x.Apart) →
    Renders (.starts a.words) (.ends a.words) a.doc a.words
  | .typed h _ h' _, hd => by
    obtain ⟨first, second⟩ := List.forall_mem_append.1 hd
    exact .left (.behind (h.renders s first) (.behind colon_renders (h'.renders s second)))
      Edge.starts_le_append
  | .untyped h _ _, hd =>
    .left (.extend (h.renders s (List.forall_mem_append.1 hd).1) .empty) Edge.starts_le_append

theorem ThenAt.renders (s : S.Source) {c b i t j A} : ThenAt S c b i t j → (∀ x ∈ t.details, x.Apart) →
    Renders A (.ends t.thenWords) t.thenDoc t.thenWords
  | .block _ h, hd => .append .space (h.renders s hd)
  | .expr _ h, hd => .behind (spaced_keyword_renders .thenKw rfl) (h.renders s hd)

theorem BodyAt.renders (s : S.Source) {c b i t j} : BodyAt S c b i t j → (∀ x ∈ t.details, x.Apart) →
    Renders .any (.ends t.words) t.doc t.words
  | .block _ h, hd => h.renders s hd
  | .expr _ h, hd => (h.renders s hd).left (Edge.le_any _)

theorem ArmsAt.renders (s : S.Source) {i as j} : ArmsAt S i as j → (∀ x ∈ Arm.allDetails as, x.Apart) →
    List.Forall₂ (Renders .any .apart) (Arm.docs as) (Arm.wordLists as)
  | .none, _ => .nil
  | .comma h _ h', hd | .broken h _ h', hd => by
    obtain ⟨first, rest⟩ := List.forall_mem_append.1 hd
    exact .cons (h.renders s first) (h'.renders s rest)
  | .last h _, hd => .cons (h.renders s (List.forall_mem_append.1 hd).1) .nil

theorem ArmAt.renders (s : S.Source) {i a j Z} : ArmAt S i a j → (∀ x ∈ a.details, x.Apart) →
    Renders .any Z a.doc a.words
  | .mk h _ h' _, hd => by
    obtain ⟨first, second⟩ := List.forall_mem_append.1 hd
    exact .append (.between ((h.renders s first).left (Edge.le_any _)) (spaced_renders .fatArrow rfl)
      (h'.renders s second)) (close_renders .comma rfl)

theorem BlockAt.renders (s : S.Source) {b i t j Z} : BlockAt S b i t j → (∀ x ∈ t.details, x.Apart) →
    Renders .any Z t.doc t.words
  | .mk _ h _ _, hd => braced_renders (h.renders s (List.forall_mem_cons.1 hd).2)

theorem StmtsAt.renders (s : S.Source) {i ss j} : StmtsAt S i ss j →
    (∀ x ∈ Stmt.allDetails ss, x.Apart) →
      List.Forall₂ (Renders .any .apart) (Stmt.docs ss) (Stmt.wordLists ss)
  | .none, _ => .nil
  | .more h _ h', hd => by
    obtain ⟨first, rest⟩ := List.forall_mem_append.1 hd
    have sound := h.isError_eq
    simp only [Stmt.docs, Stmt.wordLists, sound, Bool.false_eq_true, if_false]
    exact .cons (((h.renders s first).left (Edge.le_any _)).right Edge.apart_le_ends) (h'.renders s rest)
  | .error _ _ _ h, hd => h.renders s hd

theorem StmtAt.renders (s : S.Source) {c b i t j} : StmtAt S c b i t j → (∀ x ∈ t.details, x.Apart) →
    Renders (.fresh False) (.ends t.words) t.doc t.words
  | .letIn _ h _ h' _, hd => by
    obtain ⟨first, second⟩ := List.forall_mem_append.1 hd
    have pattern := (h.renders s first).left Edge.starts_le_fresh
    exact .between (.behind (keyword_renders .letKw rfl) pattern) (spaced_renders .eq rfl)
      (h'.renders s second)
  | .conditional _ h h' _ _, hd => by
    obtain ⟨first, others⟩ := List.forall_mem_append.1 hd
    exact .extend (.behind (.behind (keyword_renders .ifKw rfl) (h.renders s first))
      (h'.renders s (List.forall_mem_append.1 others).1)) .empty
  | .branches _ h h' _ h'' _, hd => by
    obtain ⟨first, others⟩ := List.forall_mem_append.1 hd
    obtain ⟨second, third⟩ := List.forall_mem_append.1 others
    exact .behind (.behind (.behind (keyword_renders .ifKw rfl) (h.renders s first))
      (h'.renders s second)) (.behind (spaced_keyword_renders .elseKw rfl) (h''.renders s third))
  | .ask _ _ _ h _ h' _, hd => by
    obtain ⟨first, second⟩ := List.forall_mem_append.1 hd
    exact .between ((h.renders s first).left Edge.starts_le_fresh) (spaced_renders .leftArrow rfl)
      (h'.renders s second)
  | .expr _ _ _ h _, hd => h.renders s hd

end

end Grammar

end Surface
