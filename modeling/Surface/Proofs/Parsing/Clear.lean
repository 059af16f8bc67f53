import Surface.Proofs.Parsing.Braces

/-!
# What stands outside of groups

An equals sign or a left arrow belongs to the declaration or the statement around it and never to
an expression, a pattern or a type, unless it stands in a group. And where all of a text could be
read, no rule has taken a token that could not be lexed, whether in a group or outside of one.

Results:
* `Clear`: brackets nest between two positions, and outside of groups no token has one of some tags.
* `Clear.closer?`, `Clear.ahead`, `Clear.ahead_eq`: what is clear of a tag makes no difference to the
  look for that tag.
* `ExprAt.clear`, `PatternAt.clear`, `SignatureAt.clear`, `FileAt.clear` and their likes: what the
  rules derive is clear.
* `accepted_is_lexed`: a text without errors has no token that could not be lexed, and its brackets
  nest properly.
-/

namespace Surface.Grammar

/-- A tag that no rule takes. -/
def unreadTags : List Tag := [.error]

/-- The tags that no expression has outside of groups. -/
def bindingTags : List Tag := .reserved .eq :: .reserved .leftArrow :: unreadTags

/-- The tags that no pattern has outside of groups, given whether line breaks are passed over. -/
def patternStops : Bool → List Tag
  | true => bindingTags
  | false => .lineBreak :: .eof :: bindingTags

/-- Brackets nest between two positions, outside of groups no token has one of some tags, and in
groups all could be lexed. -/
inductive Clear (S : Setting) : List Tag → Nat → Nat → Prop
  | done {ts i} : Clear S ts i i
  | plain {ts i j} : (S.tag i).isBracket = false → S.tag i ∉ ts → Clear S ts (i + 1) j → Clear S ts i j
  | group {ts i k j p} : Groups.closing? (S.tag i) = some p → Clear S unreadTags (i + 1) k →
      S.tag k = .punct p → Clear S ts (k + 1) j → Clear S ts i j

variable {S : Setting} {b : Bool} {ts us : List Tag} {t : Tag} {i j k l : Nat}

namespace Clear

theorem append (h : Clear S ts i k) (h' : Clear S ts k j) : Clear S ts i j := by
  induction h with
  | done => exact h'
  | plain ht hts _ ih => exact .plain ht hts (ih h')
  | group hi inside hk _ _ ih => exact .group hi inside hk (ih h')

theorem mono (h : Clear S ts i j) (sub : us ⊆ ts) : Clear S us i j := by
  induction h with
  | done => exact .done
  | plain ht hts _ ih => exact .plain ht (fun hu => hts (sub hu)) (ih sub)
  | group hi inside hk _ _ ih => exact .group hi inside hk (ih sub)

theorem balanced (h : Clear S ts i j) : Balanced S i j := by
  induction h with
  | done => exact .done
  | plain ht _ _ ih => exact .plain ht ih
  | group hi _ hk _ inner ih => exact .group hi inner hk ih

theorem past (h : .lineBreak ∉ ts) (i : Nat) : Clear S ts i (S.past i) := by
  unfold Setting.past
  fun_induction pastBreaks S.input.tokens i with
  | case1 i hi _ ih =>
    have hi : S.tag i = .lineBreak := hi
    apply Clear.plain
    · rw [hi]
      rfl
    · rw [hi]
      exact h
    · exact ih
  | case2 i _ => exact .done

/-- What is passed over behind a token. -/
theorem behind (h : b = true → .lineBreak ∉ ts) (i : Nat) : Clear S ts (i + 1) (S.next b i) := by
  unfold Setting.next
  split
  · next hb => exact past (h hb) (i + 1)
  · exact .done

theorem token (h : b = true → .lineBreak ∉ ts) (hi : S.tag i = t)
    (ht : t.isBracket = false ∧ t ∉ ts) : Clear S ts i (S.next b i) := by
  subst hi
  exact .plain ht.1 ht.2 (behind h i)

/-- A group in which all could be lexed. -/
theorem enclosed {p : Punct} {b' : Bool} (h : b' = true → .lineBreak ∉ ts) (hi : S.tag i = t)
    (hp : Groups.closing? t = some p) (inside : Clear S us (S.next b i) k) (hus : unreadTags ⊆ us)
    (hk : S.tag k = .punct p) : Clear S ts i (S.next b' k) := by
  have read : Clear S unreadTags (i + 1) k :=
    (behind (fun _ => by decide) i).append (inside.mono hus)
  exact .group (by rw [hi]; exact hp) read hk (behind h k)

/-- No token that could not be lexed stands between the two positions, in groups or outside. -/
theorem lexed (h : Clear S ts i j) (hts : unreadTags ⊆ ts) {m : Nat} (him : i ≤ m) (hmj : m < j) :
    S.tag m ≠ .error := by
  have here {m : Nat} (hm : S.tag m ∉ ts) : S.tag m ≠ .error :=
    fun he => hm (hts (by rw [he]; exact .head _))
  induction h with
  | done => omega
  | @plain ts i j _ hi _ ih =>
    rcases Nat.eq_or_lt_of_le him with rfl | lt
    · exact here hi
    · exact ih hts lt hmj here
  | @group ts i k j p hi _ hk _ inner ih =>
    rcases Nat.eq_or_lt_of_le him with rfl | lt
    · intro he
      rw [he] at hi
      cases hi
    rcases Nat.lt_trichotomy m k with below | rfl | above
    · refine inner (List.Subset.refl _) lt below fun hm he => hm ?_
      rw [he]
      exact .head _
    · rw [hk]
      exact Tag.noConfusion
    · exact ih hts above hmj here

end Clear

/-! ## Looking over what is clear -/

theorem Balanced.le (h : Balanced S i j) : i ≤ j := by
  induction h with
  | done => exact Nat.le_refl _
  | plain _ _ ih => omega
  | group _ _ _ _ inner ih => omega

/-- A group that balances is found to end at its closing bracket. -/
theorem Balanced.closer? {p : Punct} (groups : S.input.groups = .ofTokens S.input.tokens)
    (hi : Groups.closing? (S.tag i) = some p) (h : Balanced S (i + 1) k) (hk : S.tag k = .punct p) :
    S.input.groups.closer? i = some k := by
  obtain ⟨inside, e, same⟩ := h.nests
  have there : S.tag k ≠ .eof := by
    rw [hk]
    exact Tag.noConfusion
  have split := (S.drop_tagsOf k).resolve_left fun none => there none.2
  have nested : Groups.nests [] inside = true := by
    have := same [] []
    rwa [List.append_nil] at this
  have reached : Groups.reach 0 ((Groups.tagsOf S.input.tokens).drop (i + 1)) = inside.length := by
    rw [e, split, hk]
    refine (Groups.reach_of_nests nested _).trans ?_
    rw [Groups.reach_closer (Groups.isCloser_of_closing hi)]
    exact Nat.add_zero _
  have long := congrArg List.length e
  rw [split, List.length_append, List.length_cons] at long
  have opens : (S.input.tokens.tag i).isOpener = true := Groups.isOpener_of_closing hi
  rw [groups, Groups.closer?_eq, reached, if_pos ⟨opens, by omega⟩]
  have before := congrArg List.length split
  rw [List.length_drop, List.length_cons, List.length_drop] at before
  rw [List.length_drop, List.length_drop] at long
  have := h.le
  congr 1
  omega

namespace Clear

/-- What is clear of a tag does not have it, so that the tag stands behind if it is found. -/
theorem ahead (groups : S.input.groups = .ofTokens S.input.tokens) (h : Clear S ts i j)
    (ht : t ∈ ts) (found : S.ahead t i = true) : S.ahead t j = true := by
  induction h with
  | done => exact found
  | @plain ts i j plain hi _ ih =>
    obtain ⟨opens, closes⟩ := Bool.or_eq_false_iff.1 plain
    have ne : S.tag i ≠ t := fun e => hi (e ▸ ht)
    rw [S.ahead_step, opens, closes, if_neg ne] at found
    split at found
    · cases found
    · exact ih ht found
  | @group ts i k j p hi inside hk _ _ ih =>
    have opens := Groups.isOpener_of_closing hi
    rw [S.ahead_step, inside.balanced.closer? groups hi hk, if_pos opens] at found
    split at found
    · cases found
    · rw [Option.any_some, Bool.and_eq_true] at found
      exact ih ht found.2

/-- On one line the look for a tag passes over what is clear of it. -/
theorem ahead_eq (groups : S.input.groups = .ofTokens S.input.tokens) (h : Clear S ts i j)
    (ht : t ∈ ts) (line : .lineBreak ∈ ts ∧ .eof ∈ ts) : S.ahead t i = S.ahead t j := by
  induction h with
  | done => rfl
  | @plain ts i j plain hi _ ih =>
    obtain ⟨opens, closes⟩ := Bool.or_eq_false_iff.1 plain
    have ne {u : Tag} (hu : u ∈ ts) : S.tag i ≠ u := fun e => hi (e ▸ hu)
    rw [S.ahead_step, opens, closes, if_neg (ne ht), ih ht line]
    rw [if_neg (by simp [ne line.1, ne line.2])]
    rfl
  | @group ts i k j p hi inside hk _ _ ih =>
    have opens := Groups.isOpener_of_closing hi
    have within : i ≤ k := Nat.le_of_succ_le inside.balanced.le
    have other : ¬ (S.tag i = .eof ∨ S.tag i = .lineBreak) := by
      rintro (e | e) <;> rw [e] at hi <;> cases hi
    rw [S.ahead_step, inside.balanced.closer? groups hi hk, if_neg other, if_pos opens]
    rw [Option.any_some, decide_eq_true within, Bool.true_and]
    exact ih ht line

end Clear

/-! ## Names, paths and patterns -/

theorem isSign_of_name : ∀ {t : Tag}, nameTags.contains t = true → ∀ b,
    t.isBracket = false ∧ t ∉ patternStops b := by
  decide

theorem passes_patternStops {b : Bool} (hb : b = true) : .lineBreak ∉ patternStops b := by
  subst hb
  decide

theorem unread_patternStops (b : Bool) : unreadTags ⊆ patternStops b := by
  cases b <;> decide

theorem binding_patternStops (b : Bool) : bindingTags ⊆ patternStops b := by
  cases b <;> decide

theorem Setting.NameAt.clear {x : Ident} (h : S.NameAt i x) :
    Clear S (patternStops b) i (S.next b i) :=
  .token passes_patternStops rfl (isSign_of_name (Setting.tag_of_name h.1) b)

theorem SegmentsAt.clear {xs : List Ident} (h : SegmentsAt S b i xs j) :
    Clear S (patternStops b) i j := by
  induction h with
  | stop _ => exact .done
  | more dot name _ ih =>
    have sign : (Tag.reserved .dot).isBracket = false ∧ Tag.reserved .dot ∉ patternStops b := by
      cases b <;> decide
    exact .append (.token passes_patternStops dot.1 sign) (.append name.clear ih)

theorem PathAt.clear {p : Path} (h : PathAt S b i p j) : Clear S (patternStops b) i j :=
  .append h.head.clear h.tail.clear

theorem literal_clear {v : Literal} (h : (S.kind i).literal? = some v) :
    Clear S (patternStops b) i (S.next b i) := by
  apply Clear.token passes_patternStops rfl
  rcases Setting.tag_of_literal h with h | h | h <;> rw [h] <;> cases b <;> decide

mutual

theorem AtomAt.clear {b i p j} : AtomAt S b i p j → Clear S (patternStops b) i j
  | .literal hv _ => literal_clear hv
  | .path h _ => h.clear
  | .rest h _ => .token passes_patternStops h (by cases b <;> decide)
  | .group h hp hk => .enclosed passes_patternStops h rfl hp.clear (unread_patternStops true) hk

theorem PatternAt.clear {b i p j} : PatternAt S b i p j → Clear S (patternStops b) i j
  | .cons h hs _ => .append h.clear hs.clear
  | .atom _ h => h.clear

theorem PatternArgsAt.clear {b i ps j} : PatternArgsAt S b i ps j → Clear S (patternStops b) i j
  | .stop _ => .done
  | .more h hs => .append h.clear hs.clear

end

/-! ## Expressions and statements -/

/-- A token that may stand in an expression, outside of groups. -/
theorem Clear.sign (hi : S.tag i = t) (ht : t.isBracket = false ∧ t ∉ bindingTags) :
    Clear S bindingTags i (S.next b i) :=
  .token (fun _ => by decide) hi ht

theorem Clear.skip (i : Nat) : Clear S bindingTags i (S.past i) := .past (by decide) i

/-- A group in an expression. -/
theorem Clear.grouped {p : Punct} {b' : Bool} (hi : S.tag i = t) (hp : Groups.closing? t = some p)
    (inside : Clear S bindingTags (S.next b i) k) (hk : S.tag k = .punct p) :
    Clear S bindingTags i (S.next b' k) :=
  .enclosed (fun _ => by decide) hi hp inside (by decide) hk

theorem PathAt.binds {p : Path} (h : PathAt S b i p j) : Clear S bindingTags i j :=
  h.clear.mono (binding_patternStops b)

theorem PatternAt.binds {p : Pattern} (h : PatternAt S b i p j) : Clear S bindingTags i j :=
  h.clear.mono (binding_patternStops b)

theorem operator_clear {c : Context} {symbols : String} (h : S.operator? c i = some symbols) :
    Clear S bindingTags i (S.next b i) := by
  apply Clear.sign rfl
  rw [← S.tag_kind]
  unfold Setting.operator? at h
  split at h
  · next hk =>
    rw [hk]
    show Tag.operator.isBracket = false ∧ Tag.operator ∉ bindingTags
    decide
  · next hk =>
    rw [hk]
    decide
  · cases h

mutual

theorem ExprAt.clear (ok : ¬ S.flawed) {c b i e j} : ExprAt S c b i e j → Clear S bindingTags i j
  | .binary _ h _ _ _ => h.clear ok
  | .arrow _ h hk h' _ =>
    .append (h.clear ok) (.append (.sign hk (by decide)) (.append (.skip _) (h'.clear ok)))
  | .ascription _ h hk h' _ =>
    .append (h.clear ok) (.append (.sign hk (by decide)) (h'.clear ok))
  | .pi _ hi h hk ha h' _ | .sigma _ hi h hk ha h' _ =>
    .append (.grouped hi rfl (h.clear ok) hk)
      (.append (.sign ha (by decide)) (.append (.skip _) (h'.clear ok)))

theorem ChainAt.clear (ok : ¬ S.flawed) {c b i e j} : ChainAt S c b i e j → Clear S bindingTags i j
  | .one h => h.clear ok
  | .more h hk _ h' _ =>
    .append (h.clear ok) (.append (operator_clear hk) (.append (.skip _) (h'.clear ok)))

theorem ApplicationAt.clear (ok : ¬ S.flawed) {c b i e j} :
    ApplicationAt S c b i e j → Clear S bindingTags i j
  | .bare h _ => h.clear ok
  | .types _ h h' _ | .plain _ h h' _ _ => .append (h.clear ok) (h'.clear ok)
  | .block _ h h' _ h'' _ => .append (h.clear ok) (.append (h'.clear ok) (h''.clear ok))

theorem ArgsAt.clear (ok : ¬ S.flawed) {c b i es j} : ArgsAt S c b i es j → Clear S bindingTags i j
  | .stop _ => .done
  | .more _ h h' => .append (h.clear ok) (h'.clear ok)

theorem PrimaryAt.clear (ok : ¬ S.flawed) {c b i e j} :
    PrimaryAt S c b i e j → Clear S bindingTags i j
  | .literal hv _ => (literal_clear hv).mono (binding_patternStops b)
  | .name h _ | .path h _ => h.binds
  | .tuple hi h hk _ | .array hi h hk _ => .grouped hi rfl (h.clear ok) hk
  | .conditional hi h h' he h'' _ =>
    .append (.sign hi (by decide)) (.append (h.clear ok) (.append (h'.clear ok)
      (.append (.skip _) (.append (.sign he.past (by decide)) (h''.clear ok)))))
  | .matchOn hi h hk h' hl _ =>
    .append (.sign hi (by decide)) (.append (h.clear ok)
      (.grouped (b := false) hk rfl (.append (.skip _) (h'.clear ok)) hl))
  | .returns hi _ h _ => .append (.sign hi (by decide)) (h.clear ok)
  | .returnsNothing hi _ _ => .sign hi (by decide)
  | .lambda hi h hk h' _ => by
    have bar : S.tag i = .reserved .pipe := by rw [← S.tag_kind, hi]; rfl
    exact .append (.sign bar (by decide))
      (.append (h.clear ok) (.append (.sign hk (by decide)) (h'.clear ok)))
  | .thunk hi h _ => by
    have bars : S.tag i = .operator := by rw [← S.tag_kind, hi]; rfl
    exact .append (.sign bars (by decide)) (h.clear ok)

theorem ExprsAt.clear (ok : ¬ S.flawed) {t c b i es tr j} :
    ExprsAt S t c b i es tr j → Clear S bindingTags i j
  | .none _ => .done
  | .last h _ _ => h.clear ok
  | .more h hk h' => .append (h.clear ok) (.append (.sign hk (by decide)) (h'.clear ok))

theorem ParamsAt.clear (ok : ¬ S.flawed) {t c b i ps tr j} :
    ParamsAt S t c b i ps tr j → Clear S bindingTags i j
  | .none _ => .done
  | .last h _ _ => h.clear ok
  | .more h hk h' => .append (h.clear ok) (.append (.sign hk (by decide)) (h'.clear ok))

theorem ParamAt.clear (ok : ¬ S.flawed) {c b i p j} : ParamAt S c b i p j → Clear S bindingTags i j
  | .typed h hk h' _ => .append h.binds (.append (.sign hk (by decide)) (h'.clear ok))
  | .untyped h _ _ => h.binds

theorem ThenAt.clear (ok : ¬ S.flawed) {c b i t j} : ThenAt S c b i t j → Clear S bindingTags i j
  | .block _ h => h.clear ok
  | .expr hi h => .append (.sign hi (by decide)) (h.clear ok)

theorem BodyAt.clear (ok : ¬ S.flawed) {c b i t j} : BodyAt S c b i t j → Clear S bindingTags i j
  | .block _ h => h.clear ok
  | .expr _ h => h.clear ok

theorem ArmsAt.clear (ok : ¬ S.flawed) {i as j} : ArmsAt S i as j → Clear S bindingTags i j
  | .none => .done
  | .comma h hk h' =>
    .append (h.clear ok) (.append (.sign (b := false) hk (by decide)) (.append (.skip _) (h'.clear ok)))
  | .broken h _ h' => .append (h.clear ok) (.append (.skip _) (h'.clear ok))
  | .last h _ => h.clear ok

theorem ArmAt.clear (ok : ¬ S.flawed) {i a j} : ArmAt S i a j → Clear S bindingTags i j
  | .mk h hk h' _ =>
    .append h.binds (.append (.sign (b := false) hk (by decide)) (.append (.skip _) (h'.clear ok)))

-- the statements of a block bind, but they stand between braces
theorem BlockAt.clear (ok : ¬ S.flawed) {b i t j} : BlockAt S b i t j → Clear S bindingTags i j
  | .mk hi h hk _ =>
    .enclosed (b := false) (fun _ => by decide) hi rfl (.append (.past (by decide) _) (h.clear ok))
      (List.Subset.refl _) hk

theorem StmtsAt.clear (ok : ¬ S.flawed) {i ss j} : StmtsAt S i ss j → Clear S unreadTags i j
  | .none => .done
  | .more h _ h' => .append (h.clear ok) (.append (.past (by decide) _) (h'.clear ok))
  | .error hf _ _ _ => absurd hf ok

theorem StmtAt.clear (ok : ¬ S.flawed) {c b i s j} : StmtAt S c b i s j → Clear S unreadTags i j
  | .letIn hi h hk h' _ =>
    .append (.token (fun _ => by decide) hi (by decide)) (.append (h.clear.mono (unread_patternStops b))
      (.append (.token (fun _ => by decide) hk (by decide)) ((h'.clear ok).mono (by decide))))
  | .conditional hi h h' _ _ =>
    .mono (.append (.sign hi (by decide)) (.append (h.clear ok) (h'.clear ok))) (by decide)
  | .branches hi h h' he h'' _ =>
    .mono (.append (.sign hi (by decide)) (.append (h.clear ok) (.append (h'.clear ok)
      (.append (.skip _) (.append (.sign he.past (by decide)) (h''.clear ok)))))) (by decide)
  | .ask _ _ _ h hk h' _ =>
    .append (h.clear.mono (unread_patternStops b)) (.append (.token (fun _ => by decide) hk (by decide))
      (.append (.past (by decide) _) ((h'.clear ok).mono (by decide))))
  | .expr _ _ _ h _ => (h.clear ok).mono (by decide)

end

/-! ## Declarations -/

theorem ParamListAt.clear {a : ParamList} (ok : ¬ S.flawed) (h : ParamListAt S i a j) :
    Clear S bindingTags i j := by
  cases h with
  | explicit hi h hk _ => exact .grouped hi rfl (h.clear ok) hk
  | implicit hi _ h hk _ => exact .grouped hi rfl (h.clear ok) hk

theorem ParamListsAt.clear {as : List ParamList} (ok : ¬ S.flawed) (h : ParamListsAt S i as j) :
    Clear S bindingTags i j := by
  induction h with
  | stop _ => exact .done
  | more h _ ih => exact .append (h.clear ok) ih

theorem OptionalTypeAt.clear {t : Option Expr} (ok : ¬ S.flawed) (h : OptionalTypeAt S i t j) :
    Clear S bindingTags i j := by
  cases h with
  | some hi h => exact .append (.sign hi (by decide)) (h.clear ok)
  | none _ => exact .done

theorem OptionalBlockAt.clear {t : Option Block} (ok : ¬ S.flawed) (h : OptionalBlockAt S i t j) :
    Clear S bindingTags i j := by
  cases h with
  | some _ h => exact h.clear ok
  | none _ => exact .done

/-- No equals sign stands in a signature, outside of groups. -/
theorem SignatureAt.clear {a : Signature} (ok : ¬ S.flawed) (h : SignatureAt S i a j) :
    Clear S bindingTags i j := by
  obtain ⟨name, params, type, value, _⟩ := h
  exact .append name.binds (.append (params.clear ok) (.append (type.clear ok) (value.clear ok)))

/-- The patterns of a clause stand on one line, up to its equals sign. -/
theorem ClausePatternsAt.clear {ps : List Pattern} (h : ClausePatternsAt S i ps j) :
    Clear S (patternStops false) i j ∧ S.tag j = .reserved .eq := by
  induction h with
  | stop hi => exact ⟨.done, hi⟩
  | more _ h _ ih => exact ⟨.append h.clear ih.1, ih.2⟩

theorem ClauseAt.clear {a : Clause} (ok : ¬ S.flawed) (h : ClauseAt S i a j) :
    Clear S unreadTags i j := by
  obtain @⟨n, k, ps, l, v, _, _, name, patterns, value, _⟩ := h
  have sign : Clear S unreadTags l (S.next false l) := .token nofun patterns.clear.2 (by decide)
  have values : Clear S unreadTags (S.next false l) j := by
    cases value with
    | some _ _ h => exact (h.clear ok).mono (by decide)
    | none _ => exact .done
  exact .append (name.clear.mono (by decide))
    (.append (patterns.clear.1.mono (by decide)) (.append sign values))

theorem Listed.clear {α : Type} {P : Nat → α → Nat → Prop} {t : Tag} {as : List α} {l : Bool}
    (hP : ∀ i a j, P i a j → Clear S bindingTags i j) (h : Listed S t b P i as l j) :
    Clear S bindingTags i j := by
  induction h with
  | none _ => exact .done
  | last h _ _ => exact hP _ _ _ h
  | more h hk _ ih => exact .append (hP _ _ _ h) (.append (.sign hk (by decide)) ih)

theorem CtorParamAt.clear {a : CtorParam} (ok : ¬ S.flawed) (h : CtorParamAt S i a j) :
    Clear S bindingTags i j := by
  cases h with
  | named hx hc h =>
    have next : S.next true i = i + 1 := Setting.past_of_ne (by rw [hc]; exact Tag.noConfusion)
    rw [← next] at hc
    exact .append (hx.clear.mono (binding_patternStops true)) (.append (.sign hc (by decide)) (h.clear ok))
  | positional _ h => exact h.clear ok

theorem CtorAt.clear {a : Ctor} (ok : ¬ S.flawed) (h : CtorAt S i a j) : Clear S bindingTags i j := by
  obtain ⟨name, form, _⟩ := h
  apply Clear.append name.binds
  cases form with
  | typed hi h => exact .append (.sign hi (by decide)) (h.clear ok)
  | params hi h hk => exact .grouped hi rfl (h.clear fun _ _ _ h => h.clear ok) hk
  | bare _ _ => exact .done

theorem CtorsEndAt.clear (h : CtorsEndAt S i j) : Clear S bindingTags i j := by
  cases h with
  | comma hi _ => exact .sign (b := false) hi (by decide)
  | broken _ _ _ => exact .skip i
  | semicolon _ | other _ _ => exact .done

theorem CtorsAt.clear {as : List Ctor} (ok : ¬ S.flawed) (h : CtorsAt S i as j) :
    Clear S bindingTags i j := by
  induction h with
  | none _ => exact .done
  | last _ h he => exact .append (h.clear ok) he.clear
  | more _ h hk _ _ ih =>
    exact .append (h.clear ok) (.append (.sign (b := false) hk (by decide)) (.append (.skip _) ih))

theorem MethodsAt.clear {as : List Signature} (ok : ¬ S.flawed) (h : MethodsAt S i as j) :
    Clear S bindingTags i j := by
  induction h with
  | none _ => exact .done
  | last _ h _ => exact h.clear ok
  | more _ h _ _ ih => exact .append (h.clear ok) (.append (.skip _) ih)

theorem MembersAt.clear {sort : TypeSort} {cs : List Ctor} {ms : List Signature} (ok : ¬ S.flawed)
    (h : MembersAt S i sort cs ms j) : Clear S bindingTags i j := by
  apply Clear.append (.skip i)
  cases h with
  | trait h | methods _ _ h => exact h.clear ok
  | ctors _ _ h _ => exact h.clear ok
  | both _ _ h _ h' => exact .append (h.clear ok) (.append (.skip _) (h'.clear ok))

theorem isSign_of_type : ∀ {t : Tag}, typeTags.contains t = true →
    t.isBracket = false ∧ t ∉ bindingTags := by
  decide

theorem TypeDeclAt.clear {d : TypeDecl} (ok : ¬ S.flawed) (h : TypeDeclAt S i d j) :
    Clear S bindingTags i j := by
  obtain @⟨v, k₁, sort, n, k₂, ls, k₃, t, k₄, body, _, hv, hsort, name, params, type, hbody⟩ := h
  have visibility : Clear S bindingTags i k₁ := by
    cases hv with
    | none _ => exact .done
    | some hv _ => exact .sign rfl (isSign_of_type (typeTags_of_visibility hv))
  have word : Clear S bindingTags k₁ (S.next false k₁) :=
    .sign rfl (isSign_of_type (typeTags_of_typeSort hsort))
  have members : Clear S bindingTags k₄ j := by
    cases hbody with
    | none _ => exact .done
    | some hi h hk _ => exact .grouped hi rfl (.append (h.clear ok) (.skip _)) hk
  exact .append visibility (.append word (.append name.binds
    (.append (params.clear ok) (.append (type.clear ok) members))))

theorem DeclFormAt.clear {f : DeclForm} (ok : ¬ S.flawed) (h : DeclFormAt S i f j) :
    Clear S unreadTags i j := by
  have loose {k : Nat} (h : Clear S bindingTags i k) : Clear S unreadTags i k := h.mono (by decide)
  cases h with
  | uses hi h => exact loose (.append (.sign hi (by decide)) h.binds)
  | command hi hn has => exact loose (.append (.sign hi (by decide)) (.append hn.binds (has.clear ok)))
  | type h => exact loose (h.clear ok)
  | clause _ _ h => exact h.clear ok
  | signature _ _ h => exact loose (h.clear ok)

theorem AttrAt.clear {a : Attribute} (ok : ¬ S.flawed) (h : AttrAt S i a j) :
    Clear S bindingTags i j := by
  obtain @⟨_, k, as, _, _, hi, path, args, _⟩ := h
  apply Clear.append (.sign hi (by decide))
  apply Clear.append path.binds
  cases args with
  | some hi h hk => exact .grouped hi rfl (h.clear ok) hk
  | none _ => exact .done

theorem AttrsAt.clear {as : List Attribute} (ok : ¬ S.flawed) (h : AttrsAt S i as j) :
    Clear S bindingTags i j := by
  induction h with
  | stop _ => exact .done
  | more h _ ih => exact .append (h.clear ok) (.append (.skip _) ih)

/-! ## Items and files -/

theorem DeclAt.clear {docsFrom : Nat} {d : Decl} (ok : ¬ S.flawed) (h : DeclAt S docsFrom i d j) :
    Clear S unreadTags i j := by
  obtain ⟨_, attrs, form, _⟩ := h
  exact .append ((attrs.clear ok).mono (by decide)) (form.clear ok)

theorem ItemAt.clear {docsFrom : Nat} {a : Item} (ok : ¬ S.flawed) (h : ItemAt S docsFrom i a j) :
    Clear S unreadTags i j := by
  cases h with
  | decl _ _ h _ => exact h.clear ok
  | stmt _ _ h _ => exact h.clear ok
  | errorDecl hf _ _ _ | errorStmt hf _ _ _ => exact absurd hf ok

theorem ItemsAt.clear {docsFrom : Nat} {as : List Item} (ok : ¬ S.flawed)
    (h : ItemsAt S docsFrom i as) : ∃ j, S.tag j = .eof ∧ Clear S unreadTags i j := by
  induction h with
  | @stop _ i hi => exact ⟨i, hi, .done⟩
  | more _ h _ ih =>
    obtain ⟨j, hj, rest⟩ := ih
    exact ⟨j, hj, .append (h.clear ok) (.append (.past (by decide) _) rest)⟩

theorem FileAt.clear {line : Option Shebang} {f : SourceFile} (ok : ¬ S.flawed)
    (h : FileAt S line f) : ∃ j, S.tag j = .eof ∧ Clear S unreadTags 0 j := by
  obtain ⟨hitems, _, _⟩ := h
  obtain ⟨j, hj, items⟩ := hitems.clear ok
  exact ⟨j, hj, .append (.past (by decide) 0) items⟩

end Surface.Grammar

namespace Surface

open Grammar

/-- Where no error is reported, no token of the text is an error. -/
theorem lexed_of_accepted {cs : List Char} {dialect : Dialect} (h : (parseChars cs dialect).errors = []) :
    ∀ token ∈ (lexChars cs .empty).tokens.items.toList, token.tag ≠ .error := by
  intro token ht
  obtain ⟨j, hj, clear⟩ := (parse_derives cs dialect).clear (not_not_intro h)
  obtain ⟨body, spacing, split, hbody, _⟩ := lexChars_tokens cs .empty
  have far : body.length ≤ j := length_le_of_eof split hbody hj
  rcases List.mem_append.1 (split ▸ ht) with ht | ht
  · obtain ⟨m, hm, rfl⟩ := List.getElem_of_mem ht
    rw [← (tokens_get_body split hm).2]
    exact clear.lexed (List.Subset.refl _) (Nat.zero_le m) (by omega)
  · rw [List.mem_singleton.1 ht]
    exact Tag.noConfusion

/-- Nothing invalid is accepted: where no error is reported, every token of the text could be lexed,
and its brackets nest properly. -/
theorem accepted_is_lexed (source : String) (dialect : Dialect)
    (h : (parseText source dialect).errors = []) :
    (∀ token ∈ (lex source .empty).tokens.items, token.tag ≠ .error)
      ∧ Groups.nests [] (Groups.tagsOf (lex source .empty).tokens) = true :=
  ⟨fun token ht => lexed_of_accepted h token (Array.mem_toList_iff.2 ht), nests_of_skipsGroups (.inl h)⟩

/-- Two declarations with groups of all three sorts. -/
theorem declarations_are_lexed :
    (parseText "f (x) = g [a]\ng \x7b\n x\n\x7d" .declarationFiles).errors = []
      ∧ Groups.nests [] (Groups.tagsOf (lex "f (x) = g [a]\ng \x7b\n x\n\x7d" .empty).tokens) = true := by
  have accepted : (parseText "f (x) = g [a]\ng \x7b\n x\n\x7d" .declarationFiles).errors = [] := by
    decide +kernel
  exact ⟨accepted, (accepted_is_lexed _ _ accepted).2⟩

end Surface
