import Mathlib.Data.List.Nodup
import Mathlib.Data.List.Pairwise
import Surface.Proofs.Parsing.ItemSpans

/-!
# Documentation is attached once

A declaration takes the documentation comments that stand in front of it: behind the last token before
it, or behind the first line, and before its first token. These places are disjoint for different
items and lie outside of the items themselves, so that no comment is attached twice, and what stands in
front of a statement, in front of an item that was given up, or inside of an item is not attached.

Results:
* `Comments.docsInFront`: the documentation in front of a token, by its place alone.
* `Attached`, `ItemsAt.attached`: where items take their documentation from.
* `docs_attach`: the documentation of whole texts.
-/

namespace Surface

/-- Of two members of a list one stands in front of the other. -/
theorem eq_or_related {α : Type} {R : α → α → Prop} {l : List α}
    (h : l.Pairwise R) {a b : α} (ha : a ∈ l) (hb : b ∈ l) : a = b ∨ R a b ∨ R b a :=
  List.Pairwise.forall_of_forall_of_flip (R := fun a b => a = b ∨ R a b ∨ R b a)
    (fun _ _ => .inl rfl) (h.imp fun h => .inr (.inl h)) (h.imp fun h => .inr (.inr h)) ha hb

/-! ## Places -/

namespace Tokens

/-- The span of the last token before a position that is no line break, if there is one. -/
def lastSpan? (ts : Tokens) : Nat → Option Span
  | 0 => none
  | i + 1 => if ts.tag i = .lineBreak then ts.lastSpan? i else some (ts.get i).span

/-- The position of the first token of an item: that of the first token which is no line break and
does not start before the item. -/
def firstOf (ts : Tokens) (a : Item) : Nat :=
  ts.items.toList.findIdx fun t => t.tag ≠ .lineBreak && a.span.start ≤ t.span.start

variable {ts : Tokens} {i k : Nat}

theorem lastSpan?_pastBreaks (ts : Tokens) (i : Nat) :
    ts.lastSpan? (pastBreaks ts i) = ts.lastSpan? i := by
  fun_induction pastBreaks ts i with
  | case1 i h _ ih => rw [ih, lastSpan?, if_pos h]
  | case2 i _ => rfl

theorem lastSpan?_of_lt (hik : i < k) (hi : ts.tag i ≠ .lineBreak) :
    ts.lastSpan? k = some (ts.lastSpan k) := by
  induction k with
  | zero => cases hik
  | succ k ih =>
    rw [lastSpan?, lastSpan]
    split
    · next tag =>
      refine ih (Nat.lt_of_le_of_ne (Nat.le_of_lt_succ hik) ?_)
      rintro rfl
      exact hi tag
    · rfl

end Tokens

/-- A documentation comment as it is attached. -/
def Comment.docString (c : Comment) : DocString := ⟨c.content, c.span⟩

/-- Where the documentation in front of a token starts: behind the last token before it that is no line
break, else behind the first line, else with the text. -/
def Tokens.docsFrom (ts : Tokens) (line : Option Shebang) (i : Nat) : Nat :=
  match ts.lastSpan? i with
  | some s => s.stop
  | none => (line.map fun l => l.span.stop).getD 0

/-- A documentation comment that stands in front of a token. -/
def Comment.InFront (c : Comment) (ts : Tokens) (line : Option Shebang) (i : Nat) : Prop :=
  c.isDoc = true ∧ ts.docsFrom line i ≤ c.span.start ∧ c.span.stop ≤ (ts.get i).span.start

instance (c : Comment) (ts : Tokens) (line : Option Shebang) (i : Nat) :
    Decidable (c.InFront ts line i) := inferInstanceAs (Decidable (_ ∧ _))

/-- The documentation in front of a token, in the order of the text. -/
def Comments.docsInFront (cs : Comments) (ts : Tokens) (line : Option Shebang) (i : Nat) :
    List DocString :=
  (cs.items.toList.filter fun c => c.InFront ts line i).map Comment.docString

namespace Grammar

/-! ## Where items take their documentation from -/

variable {S : Setting} {line : Option Shebang} {a : Item} {as : List Item} {i j k docsFrom : Nat}

theorem Setting.CommentsOrdered.docs_eq (hc : S.CommentsOrdered)
    (low : S.input.tokens.docsFrom line i = docsFrom) : S.docs docsFrom i =
      if S.input.dialect.docs then S.input.comments.docsInFront S.input.tokens line i else [] := by
  obtain ⟨_, _, order⟩ := hc
  unfold Setting.docs Comments.docsInFront
  rw [Comments.toList_inRange order, List.filter_filter, ← low]
  congr 2
  refine List.filter_congr fun c _ => ?_
  rw [Bool.eq_iff_iff, decide_eq_true_eq]
  simp only [Comment.InFront, Bool.and_eq_true, decide_eq_true_eq]
  rfl

/-- An item starts with the token it was read from. -/
theorem ItemSpan.firstOf_eq (h : ItemSpan S docsFrom i a j) (o : S.Ordered) (hi : S.tag i ≠ .lineBreak)
    (hend : S.tag i ≠ .eof) (before : ∀ m < i, S.tag m ≠ .lineBreak → (S.span m).stop ≤ docsFrom) :
    S.input.tokens.firstOf a = i := by
  have inside : i < S.input.tokens.items.toList.length := Tokens.lt_size_of_tag_ne_eof hend
  unfold Tokens.firstOf
  refine (List.findIdx_eq inside).2 ⟨?_, fun m hm => ?_⟩
  · obtain ⟨tag, span⟩ := Setting.token_getElem inside
    rw [← tag, ← span]
    simpa using ⟨hi, h.start_le⟩
  · -- what stands before the item ends before its documentation
    have hmi := Nat.lt_trans hm inside
    obtain ⟨tag, span⟩ := Setting.token_getElem hmi
    rw [← tag, ← span]
    by_cases hbreak : S.tag m = .lineBreak
    · simp [hbreak]
    · have := before m hm hbreak
      have := h.from_le
      have hne : S.tag m ≠ .eof := fun ends => hend (o.tag_behind_end ends (Nat.le_of_lt hm))
      have := o.nonempty m hne
      simp only [Bool.and_eq_false_iff, decide_eq_false_iff_not]
      exact .inr (by omega)

/-- An item whose documentation is that in front of its first token. -/
structure Attached (S : Setting) (line : Option Shebang) (a : Item) (i : Nat) : Prop where
  first : S.input.tokens.firstOf a = i
  from_le : S.input.tokens.docsFrom line i ≤ (S.span i).start
  lt_stop : (S.span i).start < a.span.stop
  docs : a.docs = if S.input.dialect.docs = true ∧ a.isDocumented = true
    then S.input.comments.docsInFront S.input.tokens line i else []

theorem ItemsAt.attached (o : S.Ordered) (hc : S.CommentsOrdered) (h : ItemsAt S docsFrom i as)
    (hle : docsFrom ≤ (S.span i).start) (hi : S.tag i ≠ .lineBreak)
    (low : S.input.tokens.docsFrom line i = docsFrom)
    (before : ∀ m < i, S.tag m ≠ .lineBreak → (S.span m).stop ≤ docsFrom) :
    (∀ a ∈ as, ∃ k, Attached S line a k ∧ docsFrom ≤ S.input.tokens.docsFrom line k)
      ∧ as.Pairwise fun a b =>
        a.span.stop ≤ S.input.tokens.docsFrom line (S.input.tokens.firstOf b) := by
  induction h with
  | stop _ => exact ⟨nofun, .nil⟩
  | @more docsFrom i a k as hend h _ ih =>
    have span := h.itemSpan o hc hle hi hend
    have first := span.firstOf_eq o hi hend before
    -- the last token before the next item is the last one of this item
    have last : S.input.tokens.docsFrom line (S.past k) = (S.last k).stop := by
      unfold Tokens.docsFrom Setting.past
      rw [Tokens.lastSpan?_pastBreaks, Tokens.lastSpan?_of_lt span.lt hi]
      rfl
    obtain ⟨rest, apart⟩ := ih (o.last_stop_le_start (S.le_past k)) (S.tag_past k) last
      fun m hm hbreak => by
        have hmk : m < k := by
          by_contra behind
          exact hbreak (Setting.tag_of_lt_past (Nat.not_lt.1 behind) hm)
        exact (o.le_last hmk hbreak).2
    have attached : Attached S line a i := by
      refine ⟨first, low ▸ hle, span.start_lt_stop o hi hend, ?_⟩
      rw [span.docs, hc.docs_eq low]
      by_cases hd : S.input.dialect.docs = true <;> simp [hd]
    rw [← span.stop] at rest
    have forward : docsFrom ≤ a.span.stop :=
      Nat.le_trans hle (Nat.le_of_lt (span.start_lt_stop o hi hend))
    refine ⟨List.forall_mem_cons.2 ⟨⟨i, attached, Nat.le_of_eq low.symm⟩, fun b hb => ?_⟩,
      List.pairwise_cons.2 ⟨fun b hb => ?_, apart⟩⟩
    · obtain ⟨l, attached', le⟩ := rest b hb
      exact ⟨l, attached', Nat.le_trans forward le⟩
    · obtain ⟨l, attached', le⟩ := rest b hb
      rw [attached'.first]
      exact le

/-! ## One place for each comment -/

/-- Documentation is attached in the order of the text. -/
theorem ItemsAt.docs_increasing (o : S.Ordered) (hc : S.CommentsOrdered)
    (h : ItemsAt S docsFrom i as) (hle : docsFrom ≤ (S.span i).start) (hi : S.tag i ≠ .lineBreak)
    (hj : S.tag j = .eof) :
    Increasing docsFrom (S.span j).stop ((as.flatMap Item.docs).map DocString.span) := by
  induction h with
  | @stop docsFrom i hend =>
    have none : ItemsAt S docsFrom i [] := .stop hend
    exact none.increasing o hc hle hi hj
  | @more docsFrom i a k as hend h _ ih =>
    have span := h.itemSpan o hc hle hi hend
    have rest := ih (o.last_stop_le_start (S.le_past k)) (S.tag_past k)
    rw [← span.stop] at rest
    have front : Increasing docsFrom (S.span i).start (a.docs.map DocString.span) := by
      rw [span.docs]
      split
      · exact hc.docs hle
      · exact hle
    rw [List.flatMap_cons, List.map_append]
    exact front.append (rest.lower (Nat.le_of_lt (span.start_lt_stop o hi hend)))

/-- What an item takes stands in front of it. -/
theorem Attached.inFront (h : Attached S line a i) {c : Comment} (hc : c.docString ∈ a.docs) :
    a.isDocumented = true ∧ S.input.tokens.docsFrom line i ≤ c.span.start
      ∧ c.span.stop ≤ (S.span i).start := by
  rw [h.docs] at hc
  split at hc
  · next taken =>
    obtain ⟨c', mem, same⟩ := List.mem_map.1 hc
    obtain ⟨_, low, high⟩ := of_decide_eq_true (List.mem_filter.1 mem).2
    have span : c'.span = c.span := congrArg DocString.span same
    rw [span] at low high
    exact ⟨taken.2, low, high⟩
  · cases hc

/-- A comment in front of what takes no documentation, or inside of an item, is attached nowhere. -/
theorem Attached.not_mem_docs {b : Item} {c : Comment} (ha : Attached S line a i)
    (hb : Attached S line b j) (hs : c.span.start < c.span.stop)
    (apart : a = b ∨ a.span.stop ≤ S.input.tokens.docsFrom line j
      ∨ b.span.stop ≤ S.input.tokens.docsFrom line i)
    (hc : a.isDocumented = false ∧ c.InFront S.input.tokens line i
      ∨ (S.span i).start ≤ c.span.start ∧ c.span.stop ≤ a.span.stop) : c.docString ∉ b.docs := by
  intro mem
  obtain ⟨documented, low, high⟩ := hb.inFront mem
  have := ha.lt_stop
  have := hb.lt_stop
  have := ha.from_le
  rcases apart with rfl | before | behind
  · have same : i = j := ha.first.symm.trans hb.first
    rcases hc with ⟨plain, _⟩ | ⟨inside, _⟩
    · rw [plain] at documented
      cases documented
    · rw [same] at inside
      omega
  · have stop : c.span.stop ≤ a.span.stop := by
      rcases hc with ⟨_, _, _, front⟩ | ⟨_, inside⟩
      · have : c.span.stop ≤ (S.span i).start := front
        omega
      · exact inside
    omega
  · have start : S.input.tokens.docsFrom line i ≤ c.span.start := by
      rcases hc with ⟨_, _, front, _⟩ | ⟨inside, _⟩
      · exact front
      · omega
    omega

end Grammar

/-! ## Whole texts -/

open Grammar in
/-- In a dialect with documentation every declaration that could be read takes the documentation
comments in front of it, and nothing else; no other item takes any. What is attached stands in the
order of the text and nowhere twice. A comment in front of a statement or of an item that was given
up, or inside of an item, is attached to none. -/
theorem docs_attach (source : String) (dialect : Dialect) :
    let items := (parseText source dialect).file.items
    let line := (parseText source dialect).file.shebang
    let ts := (lex source .empty).tokens
    let cs := (lex source .empty).comments
    (∀ a ∈ items, a.docs = if dialect.docs = true ∧ a.isDocumented = true
        then cs.docsInFront ts line (ts.firstOf a) else [])
      ∧ Increasing 0 source.utf8ByteSize ((items.flatMap Item.docs).map DocString.span)
      ∧ (items.Pairwise fun a b => ∀ d ∈ a.docs, d ∉ b.docs)
      ∧ ∀ a ∈ items, ∀ c ∈ cs.items,
          a.isDocumented = false ∧ c.InFront ts line (ts.firstOf a)
            ∨ (ts.get (ts.firstOf a)).span.start ≤ c.span.start ∧ c.span.stop ≤ a.span.stop →
          ∀ b ∈ items, c.docString ∉ b.docs := by
  intro items line ts cs
  let S := Setting.ofText source.toList dialect ((parseChars source.toList dialect).errors ≠ [])
  have o : S.Ordered := ofText_ordered ..
  have hc : S.CommentsOrdered := ofText_commentsOrdered ..
  obtain ⟨derived, first, j, hj⟩ := items_of_text source.toList dialect
  have low : S.input.tokens.docsFrom line (S.past 0) = (line.map fun l => l.span.stop).getD 0 := by
    unfold Tokens.docsFrom Setting.past
    rw [Tokens.lastSpan?_pastBreaks]
    rfl
  obtain ⟨attached, apart⟩ := derived.attached o hc first (S.tag_past 0) low fun m hm hbreak =>
    absurd (Setting.tag_of_lt_past (Nat.zero_le m) hm) hbreak
  have attached (a : Item) (ha : a ∈ items) : Attached S line a (ts.firstOf a) := by
    obtain ⟨k, h, _⟩ := attached a ha
    rwa [h.first.symm] at h
  have order := derived.docs_increasing o hc first (S.tag_past 0) hj
  refine ⟨fun a ha => (attached a ha).docs, ?_, ?_, ?_⟩
  · rw [show S.span j = .point _ from ofText_end _ _ _ hj] at order
    rw [← Text.byteLength_toList]
    exact order.lower (Nat.zero_le _)
  · have different : (items.flatMap Item.docs).Nodup := by
      refine List.Nodup.of_map DocString.span (order.sorted.imp fun {s t} h => ?_)
      rintro rfl
      omega
    exact (List.nodup_flatMap.1 different).2.imp fun h d ha hb => h ha hb
  · intro a ha c hc' place b hb
    obtain ⟨_, _, comments⟩ := hc
    have size := (comments.bounds (List.mem_map_of_mem (Array.mem_toList_iff.2 hc'))).2.1
    refine (attached a ha).not_mem_docs (attached b hb) size ?_ place
    exact eq_or_related apart ha hb

end Surface
