/-
  What a scan of steps finds.

  `Step.scan` goes over the characters once, with an open operator in hand.  That is the same as
  cutting the text at its operators first and closing one piece after the other
  (`scanFrom_eq_closeAll`): the characters since the open operator are the head of the cut, and what
  comes behind is the rest of it.

  From this follows what no line of the scanner says.  A minus sign is always an operator and never
  reaches an operand, so EVERY operand that is read is finite with a clear sign: `scan_plain` for
  one text, `readAll_plain` for the steps of all dice, `Group.readAll_plain` for the groups.
-/
import DiceNotation.Group
import DiceNotation.Proofs.Binary64.Order
import DiceNotation.Proofs.Binary64.ReadBack
import DiceNotation.Proofs.Reading
import DiceNotation.Proofs.Text.Cutting

namespace DiceNotation

open Text Binary64

/-! ## Operands -/

theorem Decimal.isNegative_toBinary64 (d : Decimal) : (d.toBinary64 false).isNegative = false := by
  unfold toBinary64
  split
  · rfl
  · split
    · rfl
    · split
      · rfl
      · unfold ofQuotient
        split <;> rfl

/-- **An operand without operators in it is plain**: there is no sign that it could have. -/
theorem isPlain_of_operand? {s : Text} {x : Binary64} (hfree : s.FreeOf Operator.isSigil)
    (h : operand? s = some x) : x.IsPlain := by
  obtain ⟨hread, hfin⟩ := Option.filter_eq_some_iff.mp h
  refine ⟨hfin, ?_⟩
  unfold ofText? at hread
  rw [takeSign_of_freeOf hfree] at hread
  obtain ⟨d, -, rfl⟩ := Option.map_eq_some_iff.mp hread
  exact d.isNegative_toBinary64

/-- **A plain number is an operand when it is written**, and the same one. -/
theorem operand?_text {x : Binary64} (h : x.IsPlain) : operand? x.text = some x := by
  unfold operand?
  rw [ofText?_text h.1, Option.filter_some, if_pos h.1]

namespace Step

/-! ## One pass, or cutting first -/

/-- Closes one piece after another, the first at the start of the text or not, the others each
    behind its operator. -/
def closeAll (rule : Dangling) (operator : Operator) (atStart : Bool)
    (pieces : Text × List (Operator × Text)) : Except Fault (List Step) := do
  let first ← close rule operator atStart pieces.1
  let others ← pieces.2.mapM fun x => close rule x.1 false x.2
  return first ++ others.flatten

/-- **One pass is cutting first.**  The characters in hand are put in front of what is still to be
    cut; induction on the latter. -/
theorem scanFrom_eq_closeAll (rule : Dangling) (operator : Operator) (atStart : Bool)
    (piece s : Text) :
    scanFrom rule operator atStart piece s
      = closeAll rule operator atStart
          (piece.reverse ++ (s.cut Operator.ofSigil?).1, (s.cut Operator.ofSigil?).2) := by
  induction s generalizing operator atStart piece with
  | nil =>
    show close rule operator atStart piece.reverse = _
    simp only [closeAll, cut, List.append_nil, List.mapM_nil]
    cases close rule operator atStart piece.reverse with
    | error e => rfl
    | ok first =>
      show _ = Except.ok (first ++ [])
      rw [List.append_nil]
  | cons c s ih =>
    rw [scanFrom]
    cases hc : Operator.ofSigil? c with
    | none => rw [ih, cut_cons_of_none hc, List.reverse_cons, List.append_assoc]; rfl
    | some next =>
      -- what is in hand is closed, and the rest starts with nothing in hand
      rw [cut_cons_of_some hc, List.append_nil]
      simp only [ih, closeAll, List.reverse_nil, List.nil_append, List.mapM_cons]
      cases close rule operator atStart piece.reverse with
      | error e => rfl
      | ok first =>
        cases close rule next false (Text.cut Operator.ofSigil? s).1 with
        | error e => rfl
        | ok second =>
          cases (Text.cut Operator.ofSigil? s).2.mapM fun x => close rule x.1 false x.2 with
          | error e => rfl
          | ok others => rfl

/-- The scan of a text is the scan of the pieces between its operators, up to the first `i`. -/
theorem scan_eq_closeAll (rule : Dangling) (leading : Operator) (s : Text) :
    scan rule leading s
      = closeAll rule leading true ((s.upTo (· == targetSigil)).cut Operator.ofSigil?) := by
  rw [scan, scanFrom_eq_closeAll, List.reverse_nil, List.nil_append]

/-! ## Every operand is plain -/

theorem close_plain {rule : Dangling} {operator : Operator} {atStart : Bool} {piece : Text}
    {steps : List Step} (hfree : piece.FreeOf Operator.isSigil)
    (h : close rule operator atStart piece = .ok steps) :
    ∀ step ∈ steps, step.operand.IsPlain := by
  intro step hstep
  unfold close at h
  split at h
  · split at h
    · exact nomatch h
    · obtain rfl : [] = steps := Except.ok.inj h
      exact absurd hstep List.not_mem_nil
  · split at h
    · rename_i value hvalue
      obtain rfl : [⟨operator, value⟩] = steps := Except.ok.inj h
      rw [List.mem_singleton.mp hstep]
      exact isPlain_of_operand? hfree.trim hvalue
    · exact nomatch h

theorem closeAll_plain {rule : Dangling} {operator : Operator} {atStart : Bool} {s : Text}
    {steps : List Step}
    (h : closeAll rule operator atStart (s.cut Operator.ofSigil?) = .ok steps) :
    ∀ step ∈ steps, step.operand.IsPlain := by
  have hhead : (s.cut Operator.ofSigil?).1.FreeOf Operator.isSigil := by
    rw [cut_fst]
    exact freeOf_upTo _ _
  have htail : ∀ x ∈ (s.cut Operator.ofSigil?).2, x.2.FreeOf Operator.isSigil :=
    fun x hx => (cut_pieces_freeOf (q := fun _ => false) (fun _ _ => rfl) hx).1
  obtain ⟨first, hfirst, h⟩ := bind_eq_ok.mp h
  obtain ⟨others, hothers, h⟩ := bind_eq_ok.mp h
  obtain rfl : first ++ others.flatten = steps := Except.ok.inj h
  intro step hstep
  rcases List.mem_append.mp hstep with hstep | hstep
  · exact close_plain hhead hfirst step hstep
  · obtain ⟨closed, hclosed, hstep⟩ := List.mem_flatten.mp hstep
    obtain ⟨x, hx, hclose⟩ := exists_of_mem_mapM hothers hclosed
    exact close_plain (htail x hx) hclose step hstep

/-- **No operand that is read is negative, infinite or not a number.** -/
theorem scan_plain {rule : Dangling} {leading : Operator} {s : Text} {steps : List Step}
    (h : scan rule leading s = .ok steps) : ∀ step ∈ steps, step.operand.IsPlain := by
  rw [scan_eq_closeAll] at h
  exact closeAll_plain h

theorem readAll_plain {s : Text} {steps : List Step} (h : readAll s = .ok steps) :
    ∀ step ∈ steps, step.operand.IsPlain := by
  obtain ⟨scanned, hscanned, h⟩ := bind_eq_ok.mp h
  obtain rfl : scanned.flatten = steps := Except.ok.inj h
  intro step hstep
  obtain ⟨found, hfound, hstep⟩ := List.mem_flatten.mp hstep
  obtain ⟨x, -, hscan⟩ := exists_of_mem_mapM hscanned hfound
  exact scan_plain hscan step hstep

end Step

theorem Group.readAll_plain {s : Text} {groups : List Group} (h : readAll s = .ok groups) :
    ∀ group ∈ groups, ∀ step ∈ group.steps, step.operand.IsPlain := by
  intro group hgroup
  obtain ⟨piece, -, hread⟩ := exists_of_mem_mapM h hgroup
  obtain ⟨targets, -, hread⟩ := bind_eq_ok.mp hread
  obtain ⟨steps, hscan, hread⟩ := bind_eq_ok.mp hread
  obtain rfl : ⟨targets, steps⟩ = group := Except.ok.inj hread
  exact Step.scan_plain hscan

end DiceNotation
