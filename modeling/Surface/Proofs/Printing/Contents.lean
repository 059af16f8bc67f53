import Surface.Proofs.Grammar.Derivation
import Surface.Proofs.Lexing.Spelled
import Surface.Proofs.Parsing.Text

/-!
# What a text contains

The content of a text are its names, literals and operators. It can be told from what the characters mean,
and it is put together from that of the tokens.

Results:
* `TokenKind.content`, `Tokens.contents`: the content of a token and of tokens.
* `Lexeme.contents`, `contents_lexChars`: the content of a text is that of its tokens.
* `Carries`, `Carries.contents`: the content of the tokens between two positions.
-/

namespace Surface

/-- Whether a token is a name, a literal or an operator, or could not be read. Two bars are not:
they may stand for one operator or for the bars of a function without parameters. -/
def TokenKind.isContent : TokenKind → Bool
  | ident _ | symbolIdent _ | number _ | string _ | char _ | error _ => true
  | operator s => s != "||"
  | _ => false

/-- A token, if it is content. -/
def TokenKind.content (k : TokenKind) : List TokenKind := if k.isContent then [k] else []

theorem TokenKind.mem_content {k k' : TokenKind} (h : k ∈ k'.content) : k = k' := by
  unfold TokenKind.content at h
  split at h
  · exact List.mem_singleton.1 h
  · cases h

theorem TokenKind.mem_content_self {k : TokenKind} (h : k.isContent = true) : k ∈ k.content := by
  rw [TokenKind.content, if_pos h]
  exact List.mem_cons_self

/-- The content of tokens in order. -/
def Tokens.contents (ts : Tokens) : List TokenKind := ts.items.toList.flatMap fun t => t.kind.content

/-! ## Texts -/

namespace Lexeme

/-- The content that a sign means. -/
def Sign.content : Sign → List TokenKind
  | .token k => k.content
  | _ => []

/-- The content of a text in order. -/
def contents (cs : List Char) : List TokenKind := (signs cs).flatMap Sign.content

theorem content_told (pending : Option Bool) (ss : List Sign) :
    (told pending ss).flatMap (fun r => r.1.content) = ss.flatMap Sign.content := by
  induction ss generalizing pending with
  | nil => rfl
  | cons s ss ih =>
    cases s with
    | token kind =>
      have nothing : (pendingBreak pending).flatMap (fun r => r.1.content) = [] := by
        cases pending <;> rfl
      show (pendingBreak pending ++ (kind, false) :: told none ss).flatMap _ = _
      rw [List.flatMap_append, nothing, List.nil_append, List.flatMap_cons, List.flatMap_cons, ih]
      rfl
    | separator isSemicolon => exact ih _
    | doc _ => exact ih _

end Lexeme

/-- The content of a text is that of its tokens. -/
theorem contents_lexChars (cs : List Char) (names : NameTable) :
    (lexChars cs names).tokens.contents = Lexeme.contents (behindShebang cs) := by
  have readings : (lexChars cs names).tokens.contents
      = (lexChars cs names).tokens.readings.flatMap fun r => r.1.content := by
    unfold Tokens.readings Tokens.contents
    rw [List.flatMap_map]
    rfl
  have ends (m : Option Bool) :
      (Lexeme.pendingBreak m ++ [((.eof : TokenKind), false)]).flatMap (fun r => r.1.content) = [] := by
    cases m <;> rfl
  rw [readings, lexChars_readings, List.flatMap_append, Lexeme.content_told, ends, List.append_nil]
  rfl

namespace Grammar

/-! ## Tokens between two positions -/

/-- The content among the tokens between two positions, which all could be read. -/
inductive Carries (S : Setting) : Nat → Nat → List TokenKind → Prop
  | done {i} : Carries S i i []
  | token {i j ks} : S.tag i ≠ .error → Carries S (i + 1) j ks →
      Carries S i j ((S.kind i).content ++ ks)

variable {S : Setting} {b : Bool} {i j k : Nat} {ks ks' : List TokenKind} {t : Tag}

/-- The tags of tokens that are content or errors. -/
def contentTags : TagSet := {.ident, .symbolIdent, .number, .string, .char, .operator, .error}

theorem contentTags_of_type : ∀ {t : Tag}, typeTags.contains t = true →
    contentTags.contains t = false := by
  decide

namespace Carries

theorem append (h : Carries S i k ks) (h' : Carries S k j ks') : Carries S i j (ks ++ ks') := by
  induction h with
  | done => exact h'
  | token hi _ ih =>
    rw [List.append_assoc]
    exact .token hi (ih h')

theorem content_eq_nil {k : TokenKind} (h : contentTags.contains k.tag = false) : k.content = [] := by
  cases k <;> first
    | rfl
    | (simp only [TokenKind.tag] at h; exact absurd h (by decide))

/-- A token that is no content. -/
theorem silent (h : S.tag i = t) (ht : contentTags.contains t = false) : Carries S i (i + 1) [] := by
  have none : (S.kind i).content = [] := content_eq_nil (by rw [S.tag_kind, h, ht])
  have one := token (S := S) (i := i) (by rw [h]; rintro rfl; revert ht; decide) done
  rwa [none] at one

theorem past (i : Nat) : Carries S i (S.past i) [] := by
  unfold Setting.past
  fun_induction pastBreaks S.input.tokens i with
  | case1 i h _ ih => exact (silent (t := .lineBreak) h (by decide)).append ih
  | case2 i _ => exact .done

/-- Content in front of what has none. -/
theorem before (h : Carries S i k ks) (h' : Carries S k j []) : Carries S i j ks := by
  have both := h.append h'
  rwa [List.append_nil] at both

/-- Up to the position behind the breaks that may follow a token. -/
theorem next (h : Carries S i (i + 1) ks) : Carries S i (S.next b i) ks := by
  unfold Setting.next
  split
  · exact h.before (past (i + 1))
  · exact h

/-- A token that is content. -/
theorem one (h : S.tag i ≠ .error) : Carries S i (S.next b i) (S.kind i).content := by
  have one := token h done
  rw [List.append_nil] at one
  exact one.next

/-- A token that is no content, and the breaks that may follow it. -/
theorem mark (h : S.tag i = t) (ht : contentTags.contains t = false) : Carries S i (S.next b i) [] :=
  (silent h ht).next

theorem keyword {kw : Keyword} (h : S.tag i = .keyword kw) : Carries S i (S.next b i) [] :=
  mark h (by cases kw <;> rfl)

theorem reserved {r : Reserved} (h : S.tag i = .reserved r) : Carries S i (S.next b i) [] :=
  mark h (by cases r <;> rfl)

theorem punct {p : Punct} (h : S.tag i = .punct p) : Carries S i (S.next b i) [] :=
  mark h (by cases p <;> rfl)

/-- What lies between a position and the end is the content of the tokens there. -/
theorem contents {body : List Token} {end' : Token} (hc : Carries S i j ks)
    (h : S.input.tokens.items.toList = body ++ [end']) (hend : end'.kind = .eof)
    (hj : body.length ≤ j) : ks = (body.drop i).flatMap (fun t => t.kind.content)
      ∧ ∀ t ∈ body.drop i, t.tag ≠ .error := by
  induction hc with
  | done => rw [List.drop_eq_nil_of_le hj]; exact ⟨rfl, List.forall_mem_nil _⟩
  | @token i j ks sound _ ih =>
    obtain ⟨rest, fine⟩ := ih hj
    by_cases hi : i < body.length
    · have get := (tokens_get_body h hi).1
      rw [List.drop_eq_getElem_cons hi, List.flatMap_cons, ← rest]
      refine ⟨congrArg (fun t : Token => t.kind.content ++ ks) get,
        List.forall_mem_cons.2 ⟨?_, fine⟩⟩
      rw [← S.tag_kind] at sound
      exact fun error => sound ((congrArg Token.tag get).trans error)
    · have get := tokens_get_end h (Nat.le_of_not_lt hi)
      have nothing : (S.kind i).content = [] := by
        rw [show S.kind i = .eof from (congrArg Token.kind get).trans hend]
        rfl
      rw [nothing, rest, List.drop_eq_nil_of_le (by omega), List.drop_eq_nil_of_le (by omega)]
      exact ⟨rfl, List.forall_mem_nil _⟩

/-- Every content stands at a position. -/
theorem exists_kind {x : TokenKind} (h : Carries S i j ks) (hx : x ∈ ks) : ∃ m, S.kind m = x := by
  induction h with
  | done => cases hx
  | @token i _ _ _ _ ih =>
    rcases List.mem_append.1 hx with here | there
    · exact ⟨i, (TokenKind.mem_content here).symm⟩
    · exact ih there

end Carries

end Grammar

end Surface
