/-
  A scan that keeps offsets instead of characters.

  `Step.scan` holds the characters since the open operator in its hands.  Over UTF-8 it is cheaper to
  hold the byte at which they begin, and to slice the text as soon as they are wanted (`Scanner`,
  `scanBytes`).  Such a scan can go wrong in one more way, by a slice that the text does not have
  (`Halt.badSlice`), and three things in it look like this could happen:

  1. The sigil of a refused operator is quoted by a slice that begins one byte earlier.  So every sigil
     must be of one byte (`utf8Size_sigil`).
  2. Offset 0 says that there is no operator yet.  So there must be no other way to come to it.
  3. Characters are of one to four bytes, and a slice has to begin and stop between two of them.

  The invariant answers them all (`Scanner.Stands`).  A scanner stands behind what it has passed: the
  offset is the length of it, and it is empty or its last character is the sigil of the open operator.
  So what is closed is what `scan` has in its hands (`Scanner.flush_eq`), and one pass over the places
  of the characters is one pass over the characters (`Scanner.finish_foldlM_advance`).  Every character
  keeps it, and whatever the scanner may slice is there (`Scanner.Within`).  Hence the two scans agree,
  and no slice is ever bad (`scan_means_and_slices`).
-/
import DiceNotation.Proofs.Step.Grammar
import DiceNotation.Proofs.Text.Bytes

namespace DiceNotation.Step

open Text
open String (utf8Len)

variable {rule : Dangling} {leading : Operator} {s passed piece consumed rest : Text}

/-! ## The scanner -/

/-- What ends a scan early. -/
inductive Halt where
  /-- The text is at fault. -/
  | fault (fault : Fault)
  /-- There is no such slice. -/
  | badSlice (start stop : Nat)
  deriving DecidableEq

/-- A scan on its way: the open operator, the byte behind it, and the steps that are closed.  The
    start of the text is open at byte 0. -/
structure Scanner where
  operator : Operator
  start : Nat
  steps : List Step
  deriving DecidableEq

/-- The slice, or the end of the scan. -/
def sliceOrHalt (s : Text) (start stop : Nat) : Except Halt Text :=
  match s.slice? start stop with
  | some piece => .ok piece
  | none => .error (.badSlice start stop)

namespace Scanner

/-- Closes what is open, up to the byte `stop`. -/
def flush (rule : Dangling) (s : Text) (stop : Nat) (scanner : Scanner) : Except Halt Scanner := do
  let piece ← sliceOrHalt s scanner.start stop
  match piece.trim with
  | [] =>
    if rule = .refused ∧ 0 < scanner.start then do
      let quoted ← sliceOrHalt s (scanner.start - 1) stop
      .error (.fault (.badNumber quoted))
    else .ok scanner
  | operand =>
    match operand? operand with
    | some value => .ok { scanner with steps := scanner.steps ++ [⟨scanner.operator, value⟩] }
    | none => .error (.fault (.badNumber operand))

/-- Goes over one character: an operator closes what is open, and is open itself. -/
def advance (rule : Dangling) (s : Text) (scanner : Scanner) : Nat × Char → Except Halt Scanner
  | (place, c) =>
    match Operator.ofSigil? c with
    | none => .ok scanner
    | some next => do
      let flushed ← scanner.flush rule s place
      return { flushed with operator := next, start := place + c.utf8Size }

/-- Closes what is open at the end of the text. -/
def finish (rule : Dangling) (s : Text) (scanner : Scanner) : Except Halt (List Step) := do
  let flushed ← scanner.flush rule s (utf8Len s)
  return flushed.steps

/-- The scanner at the start of a text. -/
def initial (leading : Operator) : Scanner :=
  ⟨leading, 0, []⟩

end Scanner

/-- The text up to its first `i`. -/
def upToTarget (s : Text) : Except Halt Text :=
  match s.findByte? (· == targetSigil) with
  | some stop => sliceOrHalt s 0 stop
  | none => .ok s

/-- The steps of a text up to its first `i`, read by slices. -/
def scanBytes (rule : Dangling) (leading : Operator) (s : Text) : Except Halt (List Step) := do
  let s ← upToTarget s
  let scanner ← s.charIndices.foldlM (Scanner.advance rule s) (.initial leading)
  scanner.finish rule s

/-! ## Slices that exist -/

theorem utf8Size_sigil (operator : Operator) : operator.sigil.utf8Size = 1 := by
  cases operator <;> rfl

theorem sliceOrHalt_eq {start stop : Nat} (h : s.slice? start stop = some piece) :
    sliceOrHalt s start stop = .ok piece := by
  unfold sliceOrHalt
  rw [h]

theorem upToTarget_eq (s : Text) : upToTarget s = .ok (s.upTo (· == targetSigil)) := by
  unfold upToTarget
  split
  · exact sliceOrHalt_eq (slice?_findByte? ‹_›)
  · rw [upTo_of_findByte? ‹_›]

/-! ## Where a scanner stands -/

namespace Scanner

variable {scanner reached : Scanner}

/-- The scanner has passed so much of the text, the open operator included. -/
structure Stands (scanner : Scanner) (passed : Text) : Prop where
  start_eq : scanner.start = utf8Len passed
  opened : passed = [] ∨ ∃ front, passed = front ++ [scanner.operator.sigil]

theorem stands_initial (leading : Operator) : (initial leading).Stands [] :=
  ⟨rfl, Or.inl rfl⟩

/-- Offset 0 is the start of the text, and nothing else is. -/
theorem Stands.start_pos_iff (h : scanner.Stands passed) :
    0 < scanner.start ↔ (!passed.isEmpty) = true := by
  rw [h.start_eq, Nat.pos_iff_ne_zero, Ne, String.utf8Len_eq_zero]
  cases passed with
  | nil => exact ⟨fun h => absurd rfl h, fun h => (nomatch h)⟩
  | cons c passed => exact ⟨fun _ => rfl, fun _ => List.cons_ne_nil c passed⟩

/-- What is open can be sliced. -/
theorem Stands.slice (h : scanner.Stands passed) :
    slice? (passed ++ piece ++ rest) scanner.start (utf8Len (passed ++ piece)) = some piece := by
  rw [h.start_eq]
  exact slice?_append

/-- What is open can be sliced with the sigil in front of it. -/
theorem Stands.slice_sigil (h : scanner.Stands passed) (hpos : 0 < scanner.start) :
    slice? (passed ++ piece ++ rest) (scanner.start - 1) (utf8Len (passed ++ piece))
      = some (scanner.operator.sigil :: piece) := by
  rcases h.opened with rfl | ⟨front, rfl⟩
  · exact nomatch h.start_pos_iff.mp hpos
  · -- the sigil is of one byte, so that the slice begins right in front of it
    have hstart : scanner.start - 1 = utf8Len front := by
      rw [h.start_eq, String.utf8Len_append, String.utf8Len_cons, utf8Size_sigil]
      rfl
    refine slice?_eq_some_iff.mpr ⟨front, rest, ?_, hstart.symm, ?_⟩
    · simp only [List.append_assoc, List.cons_append, List.nil_append]
    · rw [List.append_assoc]
      rfl

/-- An operator that a scanner has gone over is behind it. -/
theorem stands_concat {next : Operator} (steps : List Step) :
    Stands ⟨next, utf8Len (s ++ [next.sigil]), steps⟩ (s ++ [next.sigil]) :=
  ⟨rfl, Or.inr ⟨s, rfl⟩⟩

/-! ## One step -/

/-- **Flushing is closing what stands behind the open operator.** -/
theorem flush_eq (h : scanner.Stands passed) :
    scanner.flush rule (passed ++ piece ++ rest) (utf8Len (passed ++ piece))
      = ((close rule scanner.operator passed.isEmpty piece).map fun closed =>
          { scanner with steps := scanner.steps ++ closed }).mapError Halt.fault := by
  unfold flush
  rw [sliceOrHalt_eq h.slice]
  cases hblank : piece.isAllBlank with
  | true =>
    rw [close_of_isAllBlank hblank]
    show (match piece.trim with | [] => _ | operand => _) = _
    rw [trim_eq_nil_iff.mpr hblank]
    by_cases hasked : rule = .refused ∧ 0 < scanner.start
    · rw [if_pos hasked, if_pos ⟨hasked.1, h.start_pos_iff.mp hasked.2⟩,
        sliceOrHalt_eq (h.slice_sigil hasked.2)]
      rfl
    · rw [if_neg hasked, if_neg fun other => hasked ⟨other.1, h.start_pos_iff.mpr other.2⟩]
      show _ = Except.ok { scanner with steps := scanner.steps ++ [] }
      rw [List.append_nil]
  | false =>
    rw [close_of_not_isAllBlank hblank]
    show (match piece.trim with | [] => _ | operand => _) = _
    split
    · exact absurd ‹piece.trim = []› (trim_ne_nil hblank)
    · cases operand? piece.trim with
      | some value => rfl
      | none => rfl

theorem advance_of_none {c : Char} (place : Nat) (hc : Operator.ofSigil? c = none) :
    scanner.advance rule s (place, c) = .ok scanner := by
  rw [advance, hc]

/-- An operator closes what is open, and stands behind itself. -/
theorem advance_of_operator (h : scanner.Stands passed) (next : Operator) :
    scanner.advance rule (passed ++ piece ++ rest) (utf8Len (passed ++ piece), next.sigil)
      = ((close rule scanner.operator passed.isEmpty piece).map fun closed =>
          ⟨next, utf8Len (passed ++ piece ++ [next.sigil]), scanner.steps ++ closed⟩).mapError
            Halt.fault := by
  rw [advance, Operator.ofSigil?_eq_some_iff.mpr rfl, utf8Len_concat]
  show (scanner.flush rule _ _ >>= _) = _
  rw [flush_eq h]
  cases close rule scanner.operator passed.isEmpty piece with
  | ok closed => rfl
  | error fault => rfl

/-! ## A whole pass -/

/-- **One pass over the places is one pass over the characters.**  What `scanFrom` has in its hands is
    the open piece; induction on what is still to come. -/
theorem finish_foldlM_advance (hstands : scanner.Stands passed) (hwhole : passed ++ piece ++ rest = s) :
    ((charIndicesFrom (utf8Len (passed ++ piece)) rest).foldlM (advance rule s) scanner
        >>= finish rule s)
      = ((scanFrom rule scanner.operator passed.isEmpty piece.reverse rest).map
          (scanner.steps ++ ·)).mapError Halt.fault := by
  subst hwhole
  induction rest generalizing scanner passed piece with
  | nil =>
    have hend : utf8Len (passed ++ piece ++ []) = utf8Len (passed ++ piece) := by
      rw [List.append_nil]
    show finish rule (passed ++ piece ++ []) scanner = _
    rw [finish, hend, flush_eq hstands, scanFrom, List.reverse_reverse]
    cases close rule scanner.operator passed.isEmpty piece with
    | ok closed => rfl
    | error fault => rfl
  | cons c rest ih =>
    rw [charIndicesFrom, List.foldlM_cons, ← utf8Len_concat, scanFrom]
    cases hc : Operator.ofSigil? c with
    | none =>
      -- the piece is longer by one character
      rw [advance_of_none _ hc]
      have hih := @ih passed (piece ++ [c]) scanner hstands
      simp only [List.append_assoc, List.cons_append, List.nil_append, List.reverse_append,
        List.reverse_cons, List.reverse_nil] at hih ⊢
      exact hih
    | some next =>
      -- all of it is passed, and the piece is empty
      obtain rfl := Operator.ofSigil?_eq_some_iff.mp hc
      rw [advance_of_operator hstands]
      show _ = Except.mapError _ (Except.map _ (close rule _ _ _ >>= _))
      rw [List.reverse_reverse]
      cases close rule scanner.operator passed.isEmpty piece with
      | error fault => rfl
      | ok closed =>
        have hopen : Stands ⟨next, utf8Len (passed ++ piece ++ [next.sigil]), scanner.steps ++ closed⟩
            (passed ++ piece ++ [next.sigil]) := stands_concat _
        have hih := @ih _ [] _ hopen
        have hsome : (passed ++ piece ++ [next.sigil]).isEmpty = false :=
          List.isEmpty_eq_false_iff.mpr (List.append_ne_nil_of_right_ne_nil _ (List.cons_ne_nil _ _))
        rw [hsome, List.append_nil, List.append_assoc (passed ++ piece)] at hih
        refine hih.trans ?_
        show Except.mapError _ (Except.map _ (scanFrom rule next false [] rest))
          = Except.mapError _ (Except.map _ (scanFrom rule next false [] rest >>= _))
        cases scanFrom rule next false [] rest with
        | error fault => rfl
        | ok more => exact congrArg Except.ok (List.append_assoc _ _ _)

/-! ## The places of all slices -/

/-- The scanner has gone over so much of the text, and stands somewhere in it. -/
def Within (scanner : Scanner) (consumed : Text) : Prop :=
  ∃ passed piece, passed ++ piece = consumed ∧ scanner.Stands passed

theorem Within.advance {c : Char} (h : scanner.Within consumed)
    (hnext : scanner.advance rule s (utf8Len consumed, c) = .ok reached) :
    reached.Within (consumed ++ [c]) := by
  obtain ⟨passed, piece, rfl, hstands⟩ := h
  cases hc : Operator.ofSigil? c with
  | none =>
    rw [advance_of_none _ hc] at hnext
    obtain rfl := Except.ok.inj hnext
    exact ⟨passed, piece ++ [c], (List.append_assoc _ _ _).symm, hstands⟩
  | some next =>
    obtain rfl := Operator.ofSigil?_eq_some_iff.mp hc
    rw [Scanner.advance, hc] at hnext
    obtain ⟨flushed, -, hnext⟩ := bind_eq_ok.mp hnext
    obtain rfl := Except.ok.inj hnext
    rw [← utf8Len_concat]
    exact ⟨_, [], List.append_nil _, stands_concat flushed.steps⟩

/-- What one step keeps, a pass keeps. -/
theorem Within.foldlM (h : scanner.Within consumed)
    (hrun : (charIndicesFrom (utf8Len consumed) rest).foldlM (Scanner.advance rule s) scanner
      = .ok reached) :
    reached.Within (consumed ++ rest) := by
  induction rest generalizing scanner consumed with
  | nil =>
    obtain rfl : scanner = reached := Except.ok.inj hrun
    rw [List.append_nil]
    exact h
  | cons c rest ih =>
    rw [charIndicesFrom, List.foldlM_cons, ← utf8Len_concat] at hrun
    obtain ⟨next, hnext, hrun⟩ := bind_eq_ok.mp hrun
    have hreached := ih (h.advance hnext) hrun
    rwa [List.append_assoc] at hreached

/-- Both slices that a scanner may take are slices of the text. -/
theorem Within.sliceable (h : scanner.Within consumed) (rest : Text) :
    Sliceable (consumed ++ rest) scanner.start (utf8Len consumed) ∧
      (0 < scanner.start → Sliceable (consumed ++ rest) (scanner.start - 1) (utf8Len consumed)) := by
  obtain ⟨passed, piece, rfl, hstands⟩ := h
  constructor
  · exact slice?_isSome_iff.mp (Option.isSome_of_eq_some hstands.slice)
  · intro hpos
    exact slice?_isSome_iff.mp (Option.isSome_of_eq_some (hstands.slice_sigil hpos))

end Scanner

/-! ## The scan -/

/-- **Reading by slices is reading by characters.** -/
theorem scanBytes_eq_scan (rule : Dangling) (leading : Operator) (s : Text) :
    scanBytes rule leading s = (scan rule leading s).mapError Halt.fault := by
  unfold scanBytes scan
  rw [upToTarget_eq]
  have hwhole : ([] : Text) ++ [] ++ s.upTo (· == targetSigil) = s.upTo (· == targetSigil) := rfl
  refine (Scanner.finish_foldlM_advance (Scanner.stands_initial leading) hwhole).trans ?_
  show Except.mapError _ (Except.map _ (scanFrom rule leading true [] _)) = _
  cases scanFrom rule leading true [] (s.upTo (· == targetSigil)) with
  | ok steps => rfl
  | error fault => rfl

/-- **A scan reads what the text means, and by slices it never slices badly.**

    1. It finds the steps or the fault that the text up to its first `i` means.
    2. By slices it finds the same, and so it never ends with a slice that is not there.
    3. Whatever it has gone over, the piece up to there is a slice of the text, and so it is with the
       byte in front of it, unless the piece is the first. -/
theorem scan_means_and_slices (rule : Dangling) (leading : Operator) (s : Text) :
    (∀ result, scan rule leading s = result ↔ Means rule leading (s.upTo (· == targetSigil)) result) ∧
    scanBytes rule leading s = (scan rule leading s).mapError Halt.fault ∧
    (∀ start stop, scanBytes rule leading s ≠ .error (.badSlice start stop)) ∧
    ∀ consumed rest reached, consumed ++ rest = s.upTo (· == targetSigil) →
      (charIndices consumed).foldlM (Scanner.advance rule (s.upTo (· == targetSigil)))
        (.initial leading) = .ok reached →
      Sliceable (s.upTo (· == targetSigil)) reached.start (utf8Len consumed) ∧
      (0 < reached.start →
        Sliceable (s.upTo (· == targetSigil)) (reached.start - 1) (utf8Len consumed)) := by
  refine ⟨fun _ => scan_iff_means, scanBytes_eq_scan rule leading s, ?_, ?_⟩
  · intro start stop h
    rw [scanBytes_eq_scan] at h
    cases hscan : scan rule leading s with
    | ok steps => rw [hscan] at h; exact nomatch h
    | error fault => rw [hscan] at h; exact nomatch Except.error.inj h
  · intro consumed rest reached hwhole hrun
    rw [← hwhole]
    have hwithin : (Scanner.initial leading).Within [] := ⟨[], [], rfl, Scanner.stands_initial leading⟩
    exact (hwithin.foldlM hrun).sliceable rest

/-- Blanks of three bytes in front of the first operator and behind the last. -/
theorem scan_means_and_slices_wide :
    scanBytes .refused .add "\u2003+5-\u2003i7".toList
        = .error (.fault (.badNumber "-\u2003".toList)) ∧
      Sliceable "\u2003+5-\u2003".toList 6 9 ∧ Sliceable "\u2003+5-\u2003".toList 5 9 := by
  obtain ⟨-, hscan, -, hslices⟩ := scan_means_and_slices .refused .add "\u2003+5-\u2003i7".toList
  have hrefused : scan .refused .add "\u2003+5-\u2003i7".toList
      = .error (.badNumber "-\u2003".toList) := by decide +kernel
  have hlast := hslices "\u2003+5-\u2003".toList [] ⟨.subtract, 6, [⟨.add, Binary64.ofInt 5⟩]⟩
    (by decide) (by decide +kernel)
  exact ⟨by rw [hscan, hrefused]; rfl, hlast.1, hlast.2 (by decide)⟩

end DiceNotation.Step
