import Surface.Proofs.Reader.Keeps

/-!
# Readers that only look and take

Most readers of single tokens neither build a node nor report an error.

Results:
* `Quiet`: the readers whose runs leave nodes and errors as they are.
-/

namespace Surface.Grammar

variable {α : Type}

/-- A reader whose runs leave nodes and errors as they are. -/
class Quiet (r : Reader α) : Prop where
  nodes : ∀ i s, (after (r i s)).nodes = s.nodes
  errors : ∀ i s, (after (r i s)).errors = s.errors

theorem quiet_of_moved {r : Reader α} (h : ∀ i s, ∃ c, after (r i s) = s.moved c) : Quiet r := by
  constructor <;> intro i s <;> obtain ⟨c, h⟩ := h i s <;> rw [h] <;> rfl

theorem quiet_of_stays {r : Reader α} (h : ∀ i s, after (r i s) = s) : Quiet r :=
  quiet_of_moved fun i s => ⟨s.cursor, h i s⟩

instance : Quiet (read : Reader Input) := quiet_of_stays fun _ _ => rfl

instance : Quiet (pure a : Reader α) := quiet_of_stays fun _ _ => rfl

instance : Quiet cursor := quiet_of_stays fun _ _ => rfl

instance : Quiet context := quiet_of_stays fun _ _ => rfl

instance : Quiet nextToken := quiet_of_stays fun _ _ => rfl

instance : Quiet nextSpan := quiet_of_stays fun _ _ => rfl

instance : Quiet nextTag := quiet_of_stays fun _ _ => rfl

instance : Quiet tagBehind := quiet_of_stays fun _ _ => rfl

instance : Quiet previousSpan := quiet_of_stays fun _ _ => rfl

instance (t : Tag) : Quiet (isNext t) := quiet_of_stays fun _ _ => rfl

instance (t : Tag) : Quiet (isNotNext t) := quiet_of_stays fun _ _ => rfl

instance (ts : TagSet) : Quiet (isNextIn ts) := quiet_of_stays fun _ _ => rfl

instance : Quiet isNameNext := quiet_of_stays fun _ _ => rfl

instance (t : Tag) : Quiet (isAhead t) := quiet_of_stays fun _ _ => rfl

instance : Quiet isBinderNext := quiet_of_stays fun _ _ => rfl

instance (start : Nat) : Quiet (docStrings start) :=
  quiet_of_stays fun i s => by
    unfold docStrings
    rw [bind_of_ok (read_run i s)]
    split <;> rfl

instance : Quiet isSemicolonNext := quiet_of_stays fun _ _ => rfl

instance : Quiet isSegmentNext := quiet_of_stays fun i s => by rw [isSegmentNext_run]; rfl

instance (t : Tag) : Quiet (isNextPastBreak t) :=
  quiet_of_stays fun i s => by rw [isNextPastBreak_run]; rfl

instance : Quiet Inner.isInBraces := quiet_of_stays fun i s => by rw [isInBraces_run]; rfl

instance : Quiet Inner.isLambdaNext := quiet_of_stays fun i s => by rw [isLambdaNext_run]; rfl

theorem isDeclNext_stays (i : Input) (s : State) : after (isDeclNext i s) = s := by
  unfold isDeclNext
  rw [bind_of_ok (read_run i s)]
  split
  · rfl
  · split
    · rfl
    · rw [bind_of_ok (isNextIn_run ..)]
      split <;> rfl

instance : Quiet isDeclNext := quiet_of_stays isDeclNext_stays

instance (t : Tag) : Quiet (takeIf t) :=
  quiet_of_moved fun i s => by
    by_cases h : s.cursor.tag i.tokens = t
    · exact ⟨_, by rw [takeIf_of_tag h]; rfl⟩
    · exact ⟨s.cursor, by rw [takeIf_of_ne h]; rfl⟩

instance (t : Tag) : Quiet (accept t) :=
  quiet_of_moved fun i s => by
    by_cases h : s.cursor.tag i.tokens = t
    · exact ⟨_, by rw [accept_of_tag h]; rfl⟩
    · exact ⟨s.cursor, by rw [accept_of_ne h]; rfl⟩

instance (t : Tag) : Quiet (expect t) :=
  quiet_of_moved fun i s => by
    by_cases h : s.cursor.tag i.tokens = t
    · exact ⟨_, by rw [expect_of_tag h]; rfl⟩
    · exact ⟨s.cursor, by rw [expect, bind_of_ok (takeIf_of_ne h)]; rfl⟩

instance (g : Opened) : Quiet (closeGroup g) :=
  quiet_of_moved fun i s => by
    by_cases h : (g.closing i.tokens s.cursor).tag i.tokens = .punct g.close
    · exact ⟨_, by rw [closeGroup_of_tag h]; rfl⟩
    · exact ⟨_, by rw [closeGroup_eq, bind_of_ok (takeIf_of_ne h)]; rfl⟩

instance : Quiet take := quiet_of_moved fun _ _ => ⟨_, rfl⟩

instance : Quiet skipBreaks := quiet_of_moved fun _ _ => ⟨_, rfl⟩

instance (b : Bool) : Quiet (setSkipsBreaks b) := quiet_of_moved fun _ _ => ⟨_, rfl⟩

instance : Quiet openGroup := quiet_of_moved fun i s => ⟨_, by rw [openGroup_run]; rfl⟩

instance : Quiet openBrace := quiet_of_moved fun i s => ⟨_, by rw [openBrace_run]; rfl⟩

instance (name : String) : Quiet (Inner.enterName name) := ⟨fun _ _ => rfl, fun _ _ => rfl⟩

end Surface.Grammar
