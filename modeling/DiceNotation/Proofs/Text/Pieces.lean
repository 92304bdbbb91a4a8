/-
  The parts of a text, said without cutting it.

  A reader is a function that cuts; a grammar says which texts there are.  Here are the three ways in
  which the texts of this library are put together, as predicates on the whole and its parts, and for
  each of them the function that finds the parts again.

  1. `InGaps core s`: the text is the core with spaces and tabs around it.  If the core has none of
     its own at its ends, `trimGap` finds it (`InGaps.trimGap_eq`).
  2. `Pieces p s pieces`: the text is the pieces with one character that `p` accepts between each two
     of them, and no such character inside.  There is one list of pieces, the one that `split` finds
     (`pieces_iff`).  A piece can be put at the end of them and taken off again (`Pieces.concat`,
     `Pieces.last_cases`).
  3. `Runs write s leading runs`: the text is a leading text and then runs, each behind the character
     that its mark is written with.  There is one way again, the one that `cut` finds (`runs_iff`).

  Whatever has been trimmed or cut out of a text is a part of it (`trim_isInfix`, `Pieces.isInfix`,
  `isInfix_joinRuns`).
-/
import DiceNotation.Proofs.Text.Gaps

namespace DiceNotation.Text

variable {p : Char → Bool} {a b core s t : Text} {c : Char}

/-! ## Gaps around a core -/

/-- The text is the core with spaces and tabs around it. -/
def InGaps (core s : Text) : Prop :=
  ∃ before after, s = before ++ (core ++ after) ∧ (∀ c ∈ before, isGap c = true) ∧
    ∀ c ∈ after, isGap c = true

/-- There need not be any. -/
theorem InGaps.refl (s : Text) : InGaps s s :=
  ⟨[], [], (List.append_nil s).symm, fun _ hc => absurd hc List.not_mem_nil,
    fun _ hc => absurd hc List.not_mem_nil⟩

theorem dropWhile_append_cons (hc : p c = false) :
    (a ++ c :: b).dropWhile p = a.dropWhile p ++ c :: b := by
  have hkeep : (c :: b).dropWhile p = c :: b :=
    List.dropWhile_cons_of_neg (by rw [hc]; exact Bool.false_ne_true)
  by_cases ha : a.dropWhile p = []
  · rw [dropWhile_append_of_eq_nil ha, hkeep, ha, List.nil_append]
  · exact dropWhile_append_of_ne_nil ha

theorem dropEnd_append_cons (hc : p c = false) :
    dropEnd p (a ++ c :: b) = a ++ c :: dropEnd p b := by
  unfold dropEnd
  rw [List.reverse_append, List.reverse_cons, List.append_assoc, List.singleton_append,
    dropWhile_append_cons hc]
  simp

theorem all_takeWhile (p : Char → Bool) (s : Text) : ∀ c ∈ s.takeWhile p, p c = true :=
  fun c hc => List.all_eq_true.mp List.all_takeWhile c hc

/-- What is dropped at the end of a text is accepted throughout. -/
theorem exists_dropEnd (p : Char → Bool) (s : Text) :
    ∃ after, s = dropEnd p s ++ after ∧ ∀ c ∈ after, p c = true := by
  refine ⟨(s.reverse.takeWhile p).reverse, ?_, fun c hc => ?_⟩
  · rw [dropEnd, ← List.reverse_append, List.takeWhile_append_dropWhile, List.reverse_reverse]
  · exact all_takeWhile p s.reverse c (List.mem_reverse.mp hc)

/-- Every text is what trimming leaves, with gaps around it. -/
theorem inGaps_trimGap (s : Text) : InGaps s.trimGap s := by
  obtain ⟨after, hafter, hgaps⟩ := exists_dropEnd isGap (s.dropWhile isGap)
  refine ⟨s.takeWhile isGap, after, ?_, all_takeWhile isGap s, hgaps⟩
  calc s = s.takeWhile isGap ++ s.dropWhile isGap := List.takeWhile_append_dropWhile.symm
    _ = s.takeWhile isGap ++ (s.trimGap ++ after) := by rw [trimGap, ← hafter]

/-- **Trimming finds a core without gaps.** -/
theorem InGaps.trimGap_eq (h : InGaps core s) (hfree : FreeOf isGap core) : s.trimGap = core := by
  obtain ⟨before, after, rfl, hbefore, hafter⟩ := h
  have hfront : (before ++ (core ++ after)).dropWhile isGap = (core ++ after).dropWhile isGap :=
    List.dropWhile_append_of_pos hbefore
  have hend : dropEnd isGap after = [] := dropEnd_eq_nil_iff.mpr hafter
  rw [trimGap, hfront]
  cases core with
  | nil =>
    rw [List.nil_append, List.dropWhile_eq_nil_iff.mpr hafter]
    rfl
  | cons c core =>
    have hc : isGap c = false := hfree c List.mem_cons_self
    rw [List.cons_append, List.dropWhile_cons_of_neg (by rw [hc]; exact Bool.false_ne_true),
      ← List.cons_append, dropEnd_append_of_eq_nil hend, dropEnd_of_freeOf hfree]

theorem inGaps_nil_iff : InGaps [] s ↔ s.trimGap = [] := by
  constructor
  · intro h
    exact h.trimGap_eq freeOf_nil
  · intro h
    rw [← h]
    exact inGaps_trimGap s

/-- Trimming the front first changes nothing. -/
theorem trimGap_dropWhile (s : Text) : trimGap (s.dropWhile isGap) = trimGap s := by
  rw [trimGap, List.dropWhile_idempotent, trimGap]

/-- Trimming the end first changes nothing. -/
theorem trimGap_dropEnd (s : Text) : trimGap (dropEnd isGap s) = trimGap s := by
  by_cases hs : FreeOf (fun c => !isGap c) s
  · -- nothing but gaps, so nothing is left on either side
    have hgaps : ∀ c ∈ s, isGap c = true := fun c hc => by simpa using hs c hc
    have hend : dropEnd isGap s = [] := dropEnd_eq_nil_iff.mpr hgaps
    rw [hend, trimGap, trimGap, List.dropWhile_eq_nil_iff.mpr hgaps]
    rfl
  · obtain ⟨front, c, rest, rfl, hfront, hc⟩ := exists_of_not_freeOf hs
    have hgap : isGap c = false := by simpa using hc
    rw [dropEnd_append_cons hgap, trimGap, trimGap, dropWhile_append_cons hgap,
      dropWhile_append_cons hgap, dropEnd_append_cons hgap, dropEnd_append_cons hgap]
    congr 2
    exact List.rdropWhile_idempotent isGap rest

theorem trimGap_append_cons (hc : isGap c = false) :
    trimGap (a ++ c :: b) = a.dropWhile isGap ++ c :: dropEnd isGap b := by
  rw [trimGap, dropWhile_append_cons hc, dropEnd_append_cons hc]

/-- Trimming leaves nothing of a blank text, and of no other. -/
theorem trim_eq_nil_iff : trim s = [] ↔ isAllBlank s = true := by
  rw [trim, trimEnd, dropEnd_eq_nil_iff, isAllBlank, List.all_eq_true]
  constructor
  · intro h c hc
    rw [← List.takeWhile_append_dropWhile (p := isBlank) (l := s)] at hc
    rcases List.mem_append.mp hc with hc | hc
    · exact all_takeWhile isBlank s c hc
    · exact h c hc
  · intro h c hc
    exact h c (List.dropWhile_subset _ hc)

theorem trim_ne_nil (hsome : isAllBlank s = false) : trim s ≠ [] := by
  rw [Ne, trim_eq_nil_iff, hsome]
  exact Bool.false_ne_true

/-- Every text is what trimming leaves, with blanks around it. -/
theorem exists_trim (s : Text) : ∃ before after, s = before ++ (trim s ++ after) ∧
    isAllBlank before = true ∧ isAllBlank after = true := by
  obtain ⟨after, hafter, hblank⟩ := exists_dropEnd isBlank (s.dropWhile isBlank)
  refine ⟨s.takeWhile isBlank, after, ?_, List.all_takeWhile, List.all_eq_true.mpr hblank⟩
  calc s = s.takeWhile isBlank ++ s.dropWhile isBlank := List.takeWhile_append_dropWhile.symm
    _ = s.takeWhile isBlank ++ (trim s ++ after) := by rw [trim, trimEnd, ← hafter]

theorem trim_isInfix (s : Text) : trim s <:+: s := by
  obtain ⟨before, after, hwhole, -, -⟩ := exists_trim s
  exact ⟨before, after, by rw [List.append_assoc, ← hwhole]⟩

/-- What trimming leaves does not begin with a blank. -/
theorem head?_trim (s : Text) : ∀ c ∈ (trim s).head?, isBlank c = false := by
  intro c hc
  obtain ⟨rest, hrest⟩ := dropEnd_isPrefix isBlank (s.dropWhile isBlank)
  have hfirst : (s.dropWhile isBlank).head? = some c := by
    obtain ⟨tail, htail⟩ := List.head?_eq_some_iff.mp hc
    rw [← hrest, show dropEnd isBlank (s.dropWhile isBlank) = c :: tail from htail]
    rfl
  have hnot := List.head?_dropWhile_not isBlank s
  rw [hfirst] at hnot
  simpa using hnot

/-- **Trimming again changes nothing.** -/
theorem trim_trim (s : Text) : trim (trim s) = trim s := by
  have hfront : (trim s).dropWhile isBlank = trim s := by
    cases hs : trim s with
    | nil => rfl
    | cons c rest =>
      have hc := head?_trim s c (by rw [hs]; rfl)
      exact List.dropWhile_cons_of_neg (by rw [hc]; exact Bool.false_ne_true)
  rw [trim, hfront]
  exact dropEnd_eq_self_iff.mpr (getLast?_dropEnd isBlank _)

theorem isAllBlank_trim (hsome : isAllBlank s = false) : isAllBlank (trim s) = false := by
  apply Bool.eq_false_iff.mpr
  intro hblank
  rw [← trim_eq_nil_iff, trim_trim] at hblank
  exact trim_ne_nil hsome hblank

/-! ## Pieces between separators -/

/-- The pieces of a text, with one character that `p` accepts between each two of them. -/
inductive Pieces (p : Char → Bool) : Text → List Text → Prop
  | last {s : Text} (h : FreeOf p s) : Pieces p s [s]
  | cons {s rest : Text} {c : Char} {pieces : List Text} (h : FreeOf p s) (hc : p c = true)
      (hrest : Pieces p rest pieces) : Pieces p (s ++ c :: rest) (s :: pieces)

variable {pieces : List Text}

theorem Pieces.split_eq (h : Pieces p s pieces) : s.split p = pieces := by
  induction h with
  | last h => exact split_of_freeOf h
  | cons h hc _ ih => rw [split_append_cons h hc, ih]

/-- A character that separates nothing belongs to the first piece. -/
theorem Pieces.cons_char {head : Text} (hc : p c = false) (h : Pieces p s (head :: pieces)) :
    Pieces p (c :: s) ((c :: head) :: pieces) := by
  cases h with
  | last h => exact .last (freeOf_cons.mpr ⟨hc, h⟩)
  | cons h hd hrest => exact .cons (freeOf_cons.mpr ⟨hc, h⟩) hd hrest

/-- Induction on the text, a character at a time. -/
theorem pieces_split (p : Char → Bool) (s : Text) : Pieces p s (s.split p) := by
  induction s with
  | nil => exact .last freeOf_nil
  | cons c s ih =>
    cases hc : p c with
    | true =>
      rw [show c :: s = [] ++ c :: s from rfl, split_append_cons freeOf_nil hc]
      exact .cons freeOf_nil hc ih
    | false =>
      have hnone : (if p c then some () else none) = none := by rw [hc]; rfl
      unfold split at ih ⊢
      rw [cut_cons_of_none hnone]
      exact ih.cons_char hc

/-- **Every text has its pieces, and they are the ones that `split` finds.** -/
theorem pieces_iff : Pieces p s pieces ↔ s.split p = pieces := by
  constructor
  · exact Pieces.split_eq
  · rintro rfl
    exact pieces_split p s

/-- A piece has no separator in it. -/
theorem Pieces.free (h : Pieces p s pieces) : ∀ piece ∈ pieces, FreeOf p piece := by
  induction h with
  | last h => exact fun piece hpiece => List.mem_singleton.mp hpiece ▸ h
  | cons h _ _ ih => exact List.forall_mem_cons.mpr ⟨h, ih⟩

/-- A piece is a part of the whole. -/
theorem Pieces.isInfix (h : Pieces p s pieces) : ∀ piece ∈ pieces, piece <:+: s := by
  induction h with
  | last _ => exact fun piece hpiece => List.mem_singleton.mp hpiece ▸ List.infix_refl _
  | @cons s rest c pieces _ _ _ ih =>
    refine List.forall_mem_cons.mpr ⟨(List.prefix_append _ _).isInfix, fun piece hpiece => ?_⟩
    exact (ih piece hpiece).trans ((List.suffix_cons c rest).trans (List.suffix_append s _)).isInfix

theorem Pieces.ne_nil (h : Pieces p s pieces) : pieces ≠ [] := by
  cases h with
  | last _ => exact List.cons_ne_nil _ _
  | cons _ _ _ => exact List.cons_ne_nil _ _

/-- One more piece, behind one more separator. -/
theorem Pieces.concat {last : Text} (h : Pieces p s pieces) (hc : p c = true)
    (hlast : FreeOf p last) : Pieces p (s ++ c :: last) (pieces ++ [last]) := by
  induction h with
  | last h => exact .cons h hc (.last hlast)
  | cons h hd _ ih =>
    rw [List.append_assoc]
    exact .cons h hd ih

/-- **The last piece taken off**, with the separator in front of it unless it is the only one. -/
theorem Pieces.last_cases {last : Text} (h : Pieces p s (pieces ++ [last])) :
    (pieces = [] ∧ s = last) ∨
      ∃ front c, s = front ++ c :: last ∧ p c = true ∧ Pieces p front pieces := by
  generalize hall : pieces ++ [last] = all at h
  induction h generalizing pieces with
  | last _ =>
    cases pieces with
    | nil => exact Or.inl ⟨rfl, (List.singleton_inj.mp hall).symm⟩
    | cons first others => simp at hall
  | @cons s rest c _ hfirst hc hrest ih =>
    right
    cases pieces with
    | nil => exact absurd (List.cons.inj hall).2.symm hrest.ne_nil
    | cons first others =>
      obtain ⟨rfl, hothers⟩ := List.cons.inj hall
      rcases ih hothers with ⟨rfl, rfl⟩ | ⟨front, d, rfl, hd, hfront⟩
      · exact ⟨first, c, rfl, hc, .last hfirst⟩
      · exact ⟨first ++ c :: front, d, by rw [List.append_assoc, List.cons_append], hd,
          .cons hfirst hc hfront⟩
/-- The last piece made longer. -/
theorem Pieces.extend {last after : Text} (h : Pieces p s (pieces ++ [last]))
    (hafter : FreeOf p after) : Pieces p (s ++ after) (pieces ++ [last ++ after]) := by
  have hlast : FreeOf p (last ++ after) :=
    freeOf_append.mpr ⟨h.free last (List.mem_append_right _ List.mem_cons_self), hafter⟩
  rcases h.last_cases with ⟨rfl, rfl⟩ | ⟨front, c, rfl, hc, hfront⟩
  · exact .last hlast
  · rw [List.append_assoc]
    exact hfront.concat hc hlast

/-! ## Runs behind marks -/

section Marks

variable {α : Type} {mark : Char → Option α} {write : α → Char} {leading : Text}
  {runs : List (α × Text)}

/-- A leading text, and runs behind the characters that their marks are written with. -/
def joinRuns (write : α → Char) (leading : Text) (runs : List (α × Text)) : Text :=
  leading ++ runs.flatMap fun x => write x.1 :: x.2

theorem joinRuns_nil (write : α → Char) (leading : Text) : joinRuns write leading [] = leading :=
  List.append_nil leading

theorem joinRuns_cons (write : α → Char) (leading : Text) (x : α × Text) (runs : List (α × Text)) :
    joinRuns write leading (x :: runs) = leading ++ write x.1 :: joinRuns write x.2 runs := rfl

/-- A run with the character in front of it is a part of the whole. -/
theorem isInfix_joinRuns {x : α × Text} (hx : x ∈ runs) :
    write x.1 :: x.2 <:+: joinRuns write leading runs := by
  obtain ⟨before, after, rfl⟩ := List.append_of_mem hx
  unfold joinRuns
  rw [List.flatMap_append, List.flatMap_cons]
  exact ⟨leading ++ before.flatMap fun x => write x.1 :: x.2, _, by
    rw [List.append_assoc, List.append_assoc]⟩

/-- A text that is a leading text and runs behind marks, and has no other marks in it. -/
structure Runs (mark : Char → Option α) (write : α → Char) (s leading : Text)
    (runs : List (α × Text)) : Prop where
  whole : s = joinRuns write leading runs
  leading_free : FreeOf (isMark mark) leading
  runs_free : ∀ x ∈ runs, FreeOf (isMark mark) x.2

/-- What was cut is the whole again. -/
theorem joinRuns_cut (hwrite : ∀ c x, mark c = some x ↔ c = write x) (s : Text) :
    joinRuns write (s.cut mark).1 (s.cut mark).2 = s := by
  induction s with
  | nil => rfl
  | cons c s ih =>
    unfold joinRuns at *
    cases hc : mark c with
    | none => rw [cut_cons_of_none hc, List.cons_append, ih]
    | some x =>
      rw [cut_cons_of_some hc, List.flatMap_cons, List.nil_append, List.cons_append, ih,
        ← (hwrite c x).mp hc]

/-- **Every text has its runs, and they are the ones that `cut` finds.** -/
theorem runs_iff (hwrite : ∀ c x, mark c = some x ↔ c = write x) :
    Runs mark write s leading runs ↔ s.cut mark = (leading, runs) := by
  constructor
  · rintro ⟨rfl, hleading, hruns⟩
    have htail := cut_flatMap (fun x => (hwrite (write x) x).mpr rfl) runs hruns
    rw [joinRuns, cut_append hleading, htail, List.append_nil]
  · intro h
    have hwhole := joinRuns_cut hwrite s
    have hfirst := cut_fst mark s
    rw [h] at hwhole hfirst
    refine ⟨hwhole.symm, ?_, fun x hx => ?_⟩
    · rw [show leading = s.upTo (isMark mark) from hfirst]
      exact freeOf_upTo _ _
    · have hmem : (x.1, x.2) ∈ (s.cut mark).2 := by rwa [h]
      exact (cut_pieces_freeOf (q := fun _ => false) (fun _ _ => rfl) hmem).1

theorem runs_cut (hwrite : ∀ c x, mark c = some x ↔ c = write x) (s : Text) :
    Runs mark write s (s.cut mark).1 (s.cut mark).2 :=
  (runs_iff hwrite).mpr rfl

/-- The marks of a text, in order. -/
theorem marks_cut (mark : Char → Option α) (s : Text) : (s.cut mark).2.map (·.1) = s.filterMap mark := by
  induction s with
  | nil => rfl
  | cons c s ih =>
    cases hc : mark c with
    | none => rw [cut_cons_of_none hc, List.filterMap_cons_none hc, ih]
    | some x => rw [cut_cons_of_some hc, List.filterMap_cons_some hc, List.map_cons, ih]

end Marks

end DiceNotation.Text
