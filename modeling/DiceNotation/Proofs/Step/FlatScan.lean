/-
  The steps for every die, in one scan.

  `Step.readAll` works on two levels: it cuts the text at its operators, and then scans every run on
  its own, though a scan finds the operators by itself.  One level would do.

  1. A run has no operators left in it, so its scan closes the run and stops at the first `i`
     (`scan_of_freeOf`).  It gives a step or none, and never two.
  2. One scan of the whole text closes the same runs in the same order (`closeAll_ignored`), since where
     nothing is refused it does not matter which of them is the first.
  3. The one difference is the `i`.  It ends the scan of its run on the first level, and of everything
     behind it on the second.  So let `clip` take out of every run what stands from its first `i` on;
     then the two are the same for every text, faults included (`readAll_eq_scan_clip`).

  A text without any `i` is not clipped at all, and an expression has no other part that is read for
  all dice: that part ends where the first `i` stands.
-/
import DiceNotation.Roll
import DiceNotation.Proofs.Step.Scan
import DiceNotation.Proofs.Text.Pieces

namespace DiceNotation.Step

open Text

variable {rule : Dangling} {operator leading : Operator} {atStart : Bool} {piece rest s : Text}
  {runs : List (Operator × Text)} {steps : List Step}

/-! ## One run -/

theorem closeAll_nil (rule : Dangling) (operator : Operator) (atStart : Bool) (piece : Text) :
    closeAll rule operator atStart (piece, []) = close rule operator atStart piece := by
  simp only [closeAll, List.mapM_nil]
  cases close rule operator atStart piece with
  | error fault => rfl
  | ok first =>
    show Except.ok (first ++ []) = _
    rw [List.append_nil]

/-- **The scan of a run closes what stands in front of its first `i`.** -/
theorem scan_of_freeOf (hfree : piece.FreeOf Operator.isSigil) :
    scan rule operator piece = close rule operator true (piece.upTo (· == targetSigil)) := by
  have hnone : (piece.upTo (· == targetSigil)).cut Operator.ofSigil?
      = (piece.upTo (· == targetSigil), []) := cut_of_freeOf hfree.upTo
  rw [scan_eq_closeAll, hnone, closeAll_nil]

/-- What was closed is a step of its operator, or nothing. -/
theorem operators_of_close (h : close rule operator atStart piece = .ok steps) :
    (steps.map (·.operator)).Sublist [operator] := by
  unfold close at h
  split at h
  · split at h
    · exact nomatch h
    · obtain rfl := Except.ok.inj h
      exact List.nil_sublist _
  · split at h
    · obtain rfl := Except.ok.inj h
      exact List.Sublist.refl _
    · exact nomatch h

/-- Where nothing is refused, the start of a text is like any other place. -/
theorem close_ignored (operator : Operator) (atStart : Bool) (piece : Text) :
    close .ignored operator atStart piece = close .ignored operator true piece := by
  unfold close
  simp only [reduceCtorEq, false_and, if_false]

/-! ## One scan -/

/-- Closes one run after another, each behind its operator. -/
def closeRuns (runs : List (Operator × Text)) : Except Fault (List Step) :=
  (runs.mapM fun x => close .ignored x.1 true x.2).map List.flatten

theorem closeAll_ignored (leading : Operator) (piece : Text) (runs : List (Operator × Text)) :
    closeAll .ignored leading true (piece, runs) = closeRuns ((leading, piece) :: runs) := by
  simp only [closeAll, closeRuns, close_ignored _ false, flatten_mapM_cons]

theorem operators_of_closeRuns (h : closeRuns runs = .ok steps) :
    (steps.map (·.operator)).Sublist (runs.map (·.1)) := by
  obtain ⟨closed, hclosed, rfl⟩ := map_eq_ok.mp h
  clear h
  induction runs generalizing closed with
  | nil =>
    obtain rfl : [] = closed := Except.ok.inj hclosed
    exact List.nil_sublist _
  | cons x runs ih =>
    rw [List.mapM_cons] at hclosed
    obtain ⟨first, hfirst, hclosed⟩ := bind_eq_ok.mp hclosed
    obtain ⟨others, hothers, hclosed⟩ := bind_eq_ok.mp hclosed
    obtain rfl : first :: others = closed := Except.ok.inj hclosed
    rw [List.flatten_cons, List.map_append]
    exact (operators_of_close hfirst).append (ih others hothers)

/-- A run up to its first `i`. -/
def clipRun (x : Operator × Text) : Operator × Text :=
  (x.1, x.2.upTo (· == targetSigil))

/-- **Two levels of reading close the runs that one does**, each up to its first `i`. -/
theorem readAll_eq_closeRuns (s : Text) :
    readAll s = closeRuns (((Operator.add, (s.cut Operator.ofSigil?).1) ::
      (s.cut Operator.ofSigil?).2).map clipRun) := by
  have hruns := runs_cut (fun _ _ => Operator.ofSigil?_eq_some_iff) s
  have hscan : ∀ x ∈ (Operator.add, (s.cut Operator.ofSigil?).1) :: (s.cut Operator.ofSigil?).2,
      scan .ignored x.1 x.2 = close .ignored (clipRun x).1 true (clipRun x).2 := by
    intro x hx
    apply scan_of_freeOf
    rcases List.mem_cons.mp hx with rfl | hx
    · exact hruns.leading_free
    · exact hruns.runs_free x hx
  rw [closeRuns, List.mapM_map]
  show (List.mapM _ _ >>= fun steps => pure steps.flatten) = _
  rw [mapM_congr hscan]
  rfl

/-! ## The clipped text -/

/-- The text without what stands in each run from its first `i` on.  `skipping` says that the run has
    had one already; an operator ends that. -/
def clipFrom (skipping : Bool) : Text → Text
  | [] => []
  | c :: s =>
    if Operator.isSigil c then c :: clipFrom false s
    else if skipping || c == targetSigil then clipFrom true s
    else c :: clipFrom false s

/-- The text with all its runs clipped. -/
def clip (s : Text) : Text :=
  clipFrom false s

theorem clipFrom_of_opensWith (h : rest.OpensWith Operator.isSigil) (skipping : Bool) :
    clipFrom skipping rest = clip rest := by
  cases rest with
  | nil => rfl
  | cons c rest =>
    have hc : Operator.isSigil c = true := opensWith_cons.mp h
    rw [clip, clipFrom, clipFrom, if_pos hc, if_pos hc]

/-- **A run is clipped on its own.**  Induction on the run, in both states. -/
theorem clipFrom_append (hfree : piece.FreeOf Operator.isSigil)
    (hrest : rest.OpensWith Operator.isSigil) (skipping : Bool) :
    clipFrom skipping (piece ++ rest)
      = (if skipping then [] else piece.upTo (· == targetSigil)) ++ clip rest := by
  induction piece generalizing skipping with
  | nil =>
    rw [List.nil_append, clipFrom_of_opensWith hrest]
    cases skipping <;> rfl
  | cons c piece ih =>
    obtain ⟨hc, hfree⟩ := freeOf_cons.mp hfree
    rw [List.cons_append, clipFrom, if_neg (by rw [hc]; exact Bool.false_ne_true), ih hfree,
      ih hfree]
    cases skipping with
    | true => rfl
    | false => cases hi : c == targetSigil <;> simp [upTo, hi]

/-- **The clipped text has the clipped runs**, behind the same operators. -/
theorem clip_joinRuns {leading : Text} (hleading : leading.FreeOf Operator.isSigil)
    (hruns : ∀ x ∈ runs, x.2.FreeOf Operator.isSigil) :
    clip (joinRuns Operator.sigil leading runs)
      = joinRuns Operator.sigil (leading.upTo (· == targetSigil)) (runs.map clipRun) := by
  induction runs generalizing leading with
  | nil =>
    have hclip := clipFrom_append hleading opensWith_nil false
    rw [List.append_nil] at hclip
    rw [joinRuns_nil, List.map_nil, joinRuns_nil, clip, hclip]
    exact List.append_nil _
  | cons x runs ih =>
    have hsigil : Operator.isSigil x.1.sigil = true := by cases x.1 <;> rfl
    have hrun := hruns x List.mem_cons_self
    have hothers := ih hrun fun y hy => hruns y (List.mem_cons_of_mem _ hy)
    rw [joinRuns_cons, clip, clipFrom_append hleading (opensWith_cons.mpr hsigil), List.map_cons,
      joinRuns_cons, clip, clipFrom, if_pos hsigil]
    show _ ++ _ :: clip _ = _
    rw [hothers]
    rfl

theorem freeOf_clipFrom (skipping : Bool) (s : Text) :
    (clipFrom skipping s).FreeOf (· == targetSigil) := by
  induction s generalizing skipping with
  | nil => exact freeOf_nil
  | cons c s ih =>
    rw [clipFrom]
    split
    · rename_i hc
      refine freeOf_cons.mpr ⟨?_, ih false⟩
      obtain ⟨o, ho⟩ := Option.isSome_iff_exists.mp hc
      rw [Operator.ofSigil?_eq_some_iff.mp ho]
      cases o <;> rfl
    · split
      · exact ih true
      · rename_i hc
        have hkept : skipping = false ∧ ¬ c = targetSigil := by simpa using hc
        exact freeOf_cons.mpr ⟨beq_eq_false_iff_ne.mpr hkept.2, ih false⟩

/-- Where there is no `i` there is nothing to clip. -/
theorem clip_of_freeOf (h : s.FreeOf (· == targetSigil)) : clip s = s := by
  unfold clip
  induction s with
  | nil => rfl
  | cons c s ih =>
    obtain ⟨hc, hs⟩ := freeOf_cons.mp h
    rw [clipFrom, ih hs]
    split
    · rfl
    · rw [if_neg (by simpa using hc)]

theorem runs_clip {leading : Text} (h : Runs Operator.ofSigil? Operator.sigil s leading runs) :
    Runs Operator.ofSigil? Operator.sigil (clip s) (leading.upTo (· == targetSigil))
      (runs.map clipRun) := by
  refine ⟨?_, h.leading_free.upTo, fun x hx => ?_⟩
  · rw [h.whole]
    exact clip_joinRuns h.leading_free h.runs_free
  · obtain ⟨y, hy, rfl⟩ := List.mem_map.mp hx
    exact (h.runs_free y hy).upTo

/-- **One scan of the clipped text is both levels of reading.** -/
theorem readAll_clip (s : Text) : readAll s = scan .ignored .add (clip s) := by
  have hruns := runs_clip (runs_cut (fun _ _ => Operator.ofSigil?_eq_some_iff) s)
  have hcut := (runs_iff (fun _ _ => Operator.ofSigil?_eq_some_iff)).mp hruns
  have hwhole : (clip s).upTo (· == targetSigil) = clip s :=
    upTo_of_freeOf (freeOf_clipFrom false s)
  rw [readAll_eq_closeRuns, scan_eq_closeAll, hwhole, hcut, closeAll_ignored]
  rfl

/-! ## No more than one step for an operator -/

theorem length_of_scan (hfree : piece.FreeOf Operator.isSigil)
    (h : scan rule operator piece = .ok steps) : steps.length ≤ 1 := by
  rw [scan_of_freeOf hfree] at h
  have hsublist := (operators_of_close h).length_le
  rwa [List.length_map] at hsublist

/-- The steps have their operators from the text, in order, and a plus for the start. -/
theorem operators_of_readAll (h : readAll s = .ok steps) :
    (steps.map (·.operator)).Sublist (.add :: s.filterMap Operator.ofSigil?) := by
  rw [readAll_eq_closeRuns] at h
  have hsublist := operators_of_closeRuns h
  rwa [List.map_map, List.map_cons, show (fun x => x.1) ∘ clipRun = (·.1) from rfl,
    marks_cut] at hsublist

/-- **Reading the steps for every die on two levels is reading them in one scan.**

    1. For a text without an `i` it is one scan of that text: the same steps in the same order, or the
       same fault with the same text in it.  No part of an expression that is read for every die has
       an `i`.
    2. For every text, it is one scan of the clipped text.
    3. The clipped text has the runs of the text, each up to its first `i`, behind the same operators.
    4. So a run gives at most one step, and the operators of all steps are operators of the text, none
       of them taken twice; the one more is the plus in front. -/
theorem readAll_eq_scan_clip :
    (∀ s : Text, s.FreeOf (· == targetSigil) → readAll s = scan .ignored .add s) ∧
    (∀ core : Text, FreeOf (· == targetSigil) (Roll.parts core).2.1) ∧
    (∀ s : Text, readAll s = scan .ignored .add (clip s)) ∧
    (∀ (s leading : Text) (runs : List (Operator × Text)),
      Runs Operator.ofSigil? Operator.sigil s leading runs →
        Runs Operator.ofSigil? Operator.sigil (clip s) (leading.upTo (· == targetSigil))
          (runs.map clipRun)) ∧
    (∀ (operator : Operator) (piece : Text) (steps : List Step), piece.FreeOf Operator.isSigil →
      scan .ignored operator piece = .ok steps → steps.length ≤ 1) ∧
    ∀ (s : Text) (steps : List Step), readAll s = .ok steps →
      (steps.map (·.operator)).Sublist (.add :: s.filterMap Operator.ofSigil?) := by
  refine ⟨fun s hfree => ?_, fun core => freeOf_upTo _ _, readAll_clip, fun s leading runs => runs_clip,
    fun operator piece steps => length_of_scan, fun s steps => operators_of_readAll⟩
  rw [readAll_clip, clip_of_freeOf hfree]

/-- A chain without an `i` that cannot be read; and one with an operator that asks for nothing, one
    whose run starts with an `i`, and one whose run ends with one. -/
theorem readAll_eq_scan_clip_chain :
    (FreeOf (· == targetSigil) "3--4x*y".toList ∧
      scan .ignored .add "3--4x*y".toList = .error (.badNumber "4x".toList) ∧
      readAll "3--4x*y".toList = .error (.badNumber "4x".toList)) ∧
    (Runs Operator.ofSigil? Operator.sigil "7-i2+ *6i/9".toList "7".toList
        [(.subtract, "i2".toList), (.add, " ".toList), (.multiply, "6i".toList),
          (.divide, "9".toList)] ∧
      Runs Operator.ofSigil? Operator.sigil (clip "7-i2+ *6i/9".toList) "7".toList
        [(.subtract, []), (.add, " ".toList), (.multiply, "6".toList), (.divide, "9".toList)]) ∧
    readAll "7-i2+ *6i/9".toList = scan .ignored .add (clip "7-i2+ *6i/9".toList) ∧
    (FreeOf Operator.isSigil "6i".toList ∧ scan .ignored .multiply "6i".toList = .ok [⟨.multiply, 6⟩] ∧
      [(⟨.multiply, 6⟩ : Step)].length ≤ 1) ∧
    readAll "7-i2+ *6i/9".toList = .ok [⟨.add, 7⟩, ⟨.multiply, 6⟩, ⟨.divide, 9⟩] ∧
    [Operator.add, .multiply, .divide].Sublist [.add, .subtract, .add, .multiply, .divide] := by
  obtain ⟨hflat, -, hclip, hruns, hone, hsublist⟩ := readAll_eq_scan_clip
  have hfree : FreeOf (· == targetSigil) "3--4x*y".toList := by decide +kernel
  have hfault : scan .ignored .add "3--4x*y".toList = .error (.badNumber "4x".toList) := by
    decide +kernel
  have hpieces : Runs Operator.ofSigil? Operator.sigil "7-i2+ *6i/9".toList "7".toList
      [(.subtract, "i2".toList), (.add, " ".toList), (.multiply, "6i".toList),
        (.divide, "9".toList)] :=
    ⟨by decide +kernel, by decide +kernel, by decide +kernel⟩
  have hrun : FreeOf Operator.isSigil "6i".toList := by decide +kernel
  have hstep : scan .ignored .multiply "6i".toList = .ok [⟨.multiply, 6⟩] := by decide +kernel
  have hsteps : readAll "7-i2+ *6i/9".toList = .ok [⟨.add, 7⟩, ⟨.multiply, 6⟩, ⟨.divide, 9⟩] := by
    decide +kernel
  refine ⟨⟨hfree, hfault, (hflat _ hfree).trans hfault⟩, ⟨hpieces, hruns _ _ _ hpieces⟩, hclip _,
    ⟨hrun, hstep, hone _ _ _ hrun hstep⟩, hsteps, ?_⟩
  exact hsublist _ _ hsteps

end DiceNotation.Step
