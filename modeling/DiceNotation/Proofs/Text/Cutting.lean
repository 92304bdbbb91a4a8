/-
  The laws of cutting text.

  Two facts about a piece of text decide where it is cut.  It can be FREE of the characters that
  `p` accepts (`FreeOf p`), or it can open with one of them unless it is empty (`OpensWith p`).

  1. A text in front that is free of marks passes through every cut unchanged, and a text that
     opens with a mark is cut right there (`upTo_append`, `onward_append`, `cut_append`).
  2. So a text that is free in front and opens behind is cut in ONE place, and the two parts are
     known from the whole (`append_inj_of_freeOf_of_opensWith`).
  3. `cut` goes on where `upTo` stops, and each of its pieces is free of marks (`cut_pieces_freeOf`).
  4. Pieces that are free of a separator are split back after they have been joined with it
     (`split_intercalate`).
  5. Trimming takes nothing from a text that is free of blanks (`trim_of_freeOf`), and never brings
     in a character (`FreeOf.trim`).
-/
import DiceNotation.Text.Cut

namespace DiceNotation.Text

variable {α : Type} {p q : Char → Bool} {mark : Char → Option α} {a b s : Text}

/-! ## Free texts and opening texts -/

/-- No character of the text is one that `p` accepts. -/
def FreeOf (p : Char → Bool) (s : Text) : Prop :=
  ∀ c ∈ s, p c = false

/-- The text is empty, or its first character is one that `p` accepts. -/
def OpensWith (p : Char → Bool) (s : Text) : Prop :=
  ∀ c ∈ s.head?, p c = true

instance : Decidable (FreeOf p s) :=
  decidable_of_iff (s.all (fun c => !p c) = true) (by simp [FreeOf])

instance : Decidable (OpensWith p s) :=
  decidable_of_iff (s.head?.all p = true) (by cases s <;> simp [OpensWith])

theorem freeOf_nil : FreeOf p [] :=
  fun _ h => absurd h List.not_mem_nil

theorem freeOf_cons {c : Char} : FreeOf p (c :: s) ↔ p c = false ∧ FreeOf p s :=
  List.forall_mem_cons

theorem freeOf_append : FreeOf p (a ++ b) ↔ FreeOf p a ∧ FreeOf p b :=
  List.forall_mem_append

theorem opensWith_nil : OpensWith p [] :=
  fun _ h => nomatch h

theorem opensWith_cons {c : Char} : OpensWith p (c :: s) ↔ p c = true := by
  simp [OpensWith]

/-- What is free of more is free of less. -/
theorem FreeOf.mono (h : FreeOf p s) (hqp : ∀ c, q c = true → p c = true) : FreeOf q s := by
  intro c hc
  rcases hq : q c with _ | _
  · rfl
  · have := h c hc
    rw [hqp c hq] at this
    exact this

/-! ## The first mark -/

theorem upTo_append (h : FreeOf p a) : upTo p (a ++ b) = a ++ upTo p b := by
  unfold upTo
  exact List.takeWhile_append_of_pos fun c hc => by rw [h c hc]; rfl

theorem onward_append (h : FreeOf p a) : onward p (a ++ b) = onward p b := by
  unfold onward
  exact List.dropWhile_append_of_pos fun c hc => by rw [h c hc]; rfl

theorem upTo_of_freeOf (h : FreeOf p s) : upTo p s = s := by
  have := upTo_append (b := []) h
  rwa [List.append_nil, show upTo p [] = [] from rfl, List.append_nil] at this

theorem onward_of_freeOf (h : FreeOf p s) : onward p s = [] := by
  have := onward_append (b := []) h
  rwa [List.append_nil] at this

theorem upTo_of_opensWith (h : OpensWith p s) : upTo p s = [] := by
  cases s with
  | nil => rfl
  | cons c s => simp [upTo, opensWith_cons.mp h]

theorem onward_of_opensWith (h : OpensWith p s) : onward p s = s := by
  have := upTo_append_onward p s
  rwa [upTo_of_opensWith h] at this

theorem freeOf_upTo (p : Char → Bool) (s : Text) : FreeOf p (upTo p s) := by
  induction s with
  | nil => exact freeOf_nil
  | cons c s ih =>
    unfold upTo at *
    rw [List.takeWhile_cons]
    split
    · rename_i h
      exact freeOf_cons.mpr ⟨by simpa using h, ih⟩
    · exact freeOf_nil

theorem opensWith_onward (p : Char → Bool) (s : Text) : OpensWith p (onward p s) := by
  induction s with
  | nil => exact opensWith_nil
  | cons c s ih =>
    unfold onward at *
    rw [List.dropWhile_cons]
    split
    · exact ih
    · rename_i h
      exact opensWith_cons.mpr (by simpa using h)

/-- A part of a free text is free. -/
theorem FreeOf.upTo (h : FreeOf q s) : FreeOf q (upTo p s) := by
  rw [← upTo_append_onward p s] at h
  exact (freeOf_append.mp h).1

theorem FreeOf.onward (h : FreeOf q s) : FreeOf q (onward p s) := by
  rw [← upTo_append_onward p s] at h
  exact (freeOf_append.mp h).2

/-- **One place to cut.**  The front is free and the rest opens, so the whole tells both. -/
theorem append_inj_of_freeOf_of_opensWith {a' b' : Text} (ha : FreeOf p a) (hb : OpensWith p b)
    (ha' : FreeOf p a') (hb' : OpensWith p b') (h : a ++ b = a' ++ b') : a = a' ∧ b = b' := by
  have hfront : a = a' := by
    have := congrArg (Text.upTo p) h
    rwa [upTo_append ha, upTo_append ha', upTo_of_opensWith hb, upTo_of_opensWith hb',
      List.append_nil, List.append_nil] at this
  subst hfront
  exact ⟨rfl, List.append_cancel_left h⟩

/-! ## Every mark -/

/-- A character that is a mark. -/
def isMark (mark : Char → Option α) (c : Char) : Bool :=
  (mark c).isSome

theorem cut_cons_of_none {c : Char} (h : mark c = none) :
    cut mark (c :: s) = (c :: (cut mark s).1, (cut mark s).2) := by
  simp [cut, h]

theorem cut_cons_of_some {c : Char} {x : α} (h : mark c = some x) :
    cut mark (c :: s) = ([], (x, (cut mark s).1) :: (cut mark s).2) := by
  simp [cut, h]

theorem cut_append (h : FreeOf (isMark mark) a) :
    cut mark (a ++ b) = (a ++ (cut mark b).1, (cut mark b).2) := by
  induction a with
  | nil => rfl
  | cons c a ih =>
    obtain ⟨hc, ha⟩ := freeOf_cons.mp h
    have hnone : mark c = none := by simpa [isMark] using hc
    rw [List.cons_append, cut_cons_of_none hnone, ih ha, List.cons_append]

theorem cut_of_freeOf (h : FreeOf (isMark mark) s) : cut mark s = (s, []) := by
  have := cut_append (b := []) h
  rwa [List.append_nil, show cut mark [] = ([], []) from rfl, List.append_nil] at this

/-- The head of a cut is what stands before the first mark. -/
theorem cut_fst (mark : Char → Option α) (s : Text) : (cut mark s).1 = upTo (isMark mark) s := by
  induction s with
  | nil => rfl
  | cons c s ih =>
    rcases h : mark c with _ | x
    · simp [cut, h, ih, upTo, isMark]
    · simp [cut, h, upTo, isMark]

/-- What stands before the first mark has no part in the pieces behind it. -/
theorem cut_onward (mark : Char → Option α) (s : Text) :
    ((s.onward (isMark mark)).cut mark).2 = (s.cut mark).2 := by
  have hcut : Text.cut mark (s.upTo (isMark mark) ++ s.onward (isMark mark)) = _ :=
    cut_append (freeOf_upTo _ _)
  rw [upTo_append_onward] at hcut
  rw [hcut]

/-- **No piece has a mark inside**, and none has a character that the text has not. -/
theorem cut_pieces_freeOf (h : FreeOf q s) {x : α} {piece : Text}
    (hmem : (x, piece) ∈ (cut mark s).2) :
    FreeOf (isMark mark) piece ∧ FreeOf q piece := by
  induction s with
  | nil => exact absurd hmem List.not_mem_nil
  | cons c s ih =>
    obtain ⟨_, hs⟩ := freeOf_cons.mp h
    rcases hc : mark c with _ | y
    · rw [cut_cons_of_none hc] at hmem
      exact ih hs hmem
    · rw [cut_cons_of_some hc] at hmem
      rcases List.mem_cons.mp hmem with heq | hmem
      · -- the piece behind this mark is what stands before the next one
        have hpiece : piece = upTo (isMark mark) s := by
          rw [← cut_fst]
          exact congrArg Prod.snd heq
        rw [hpiece]
        exact ⟨freeOf_upTo _ _, hs.upTo⟩
      · exact ih hs hmem

/-- Marked pieces that are written one after another are cut apart again. -/
theorem cut_flatMap {write : α → Char} (hmark : ∀ x, mark (write x) = some x)
    (pieces : List (α × Text)) (h : ∀ x ∈ pieces, FreeOf (isMark mark) x.2) :
    cut mark (pieces.flatMap fun x => write x.1 :: x.2) = ([], pieces) := by
  induction pieces with
  | nil => rfl
  | cons x pieces ih =>
    have htail := ih fun y hy => h y (List.mem_cons_of_mem _ hy)
    rw [List.flatMap_cons, List.cons_append, cut_cons_of_some (hmark x.1),
      cut_append (h x List.mem_cons_self), htail, List.append_nil]

/-! ## Splitting what was joined -/

theorem freeOf_intercalate {separator : Text} (hsep : FreeOf p separator) {pieces : List Text}
    (h : ∀ s ∈ pieces, FreeOf p s) : FreeOf p (List.intercalate separator pieces) := by
  match pieces with
  | [] => exact freeOf_nil
  | [s] =>
    rw [List.intercalate_singleton]
    exact h s List.mem_cons_self
  | s :: t :: pieces =>
    have htail : FreeOf p (List.intercalate separator (t :: pieces)) :=
      freeOf_intercalate hsep fun u hu => h u (List.mem_cons_of_mem _ hu)
    rw [List.intercalate_cons_cons]
    exact freeOf_append.mpr ⟨freeOf_append.mpr ⟨h s List.mem_cons_self, hsep⟩, htail⟩

/-- Splitting is cutting, whatever the marks stand for. -/
theorem split_eq_cut (mark : Char → Option α) (s : Text) :
    s.split (isMark mark) = (s.cut mark).1 :: (s.cut mark).2.map (·.2) := by
  unfold split
  induction s with
  | nil => rfl
  | cons c s ih =>
    obtain ⟨hhead, htail⟩ := List.cons.inj ih
    cases hc : mark c with
    | none =>
      have hnone : (if isMark mark c then some () else none) = none := by rw [isMark, hc]; rfl
      rw [cut_cons_of_none hnone, cut_cons_of_none hc]
      simp only [hhead, htail]
    | some a =>
      have hsome : (if isMark mark c then some () else none) = some () := by rw [isMark, hc]; rfl
      rw [cut_cons_of_some hsome, cut_cons_of_some hc]
      simp only [List.map_cons, hhead, htail]

theorem split_of_freeOf (h : FreeOf p s) : split p s = [s] := by
  have : FreeOf (isMark fun c => if p c then some () else none) s := by
    intro c hc
    simp [isMark, h c hc]
  simp [split, cut_of_freeOf this]

theorem split_append_cons {c : Char} (h : FreeOf p a) (hc : p c = true) :
    split p (a ++ c :: b) = a :: split p b := by
  have hfree : FreeOf (isMark fun c => if p c then some () else none) a := by
    intro c hc
    simp [isMark, h c hc]
  simp [split, cut_append hfree, cut, hc]

/-- **Splitting undoes joining**, as long as no piece has the separator in it. -/
theorem split_intercalate {c : Char} (hc : p c = true) (piece : Text) (pieces : List Text)
    (h : ∀ s ∈ piece :: pieces, FreeOf p s) :
    split p (List.intercalate [c] (piece :: pieces)) = piece :: pieces := by
  induction pieces generalizing piece with
  | nil =>
    rw [List.intercalate_singleton]
    exact split_of_freeOf (h piece List.mem_cons_self)
  | cons next pieces ih =>
    have hjoin : List.intercalate [c] (piece :: next :: pieces)
        = piece ++ c :: List.intercalate [c] (next :: pieces) := by
      rw [List.intercalate_cons_cons, List.append_assoc]
      rfl
    rw [hjoin, split_append_cons (h piece List.mem_cons_self) hc,
      ih next fun s hs => h s (List.mem_cons_of_mem _ hs)]

/-! ## Trimming -/

theorem dropWhile_of_freeOf (h : FreeOf p s) : s.dropWhile p = s := by
  cases s with
  | nil => rfl
  | cons c s =>
    have hc : ¬ p c = true := by rw [h c List.mem_cons_self]; exact Bool.false_ne_true
    exact List.dropWhile_cons_of_neg hc

theorem dropEnd_of_freeOf (h : FreeOf p s) : dropEnd p s = s := by
  have hrev : FreeOf p s.reverse := fun c hc => h c (List.mem_reverse.mp hc)
  rw [dropEnd, dropWhile_of_freeOf hrev, List.reverse_reverse]

/-- A text without blanks stays as it is. -/
theorem trim_of_freeOf (h : FreeOf isBlank s) : trim s = s := by
  rw [trim, dropWhile_of_freeOf h, trimEnd, dropEnd_of_freeOf h]

theorem trimGap_of_freeOf (h : FreeOf isBlank s) : trimGap s = s := by
  have hgap : FreeOf isGap s := h.mono fun c hc => isBlank_of_isGap hc
  rw [trimGap, dropWhile_of_freeOf hgap, dropEnd_of_freeOf hgap]

/-- What is dropped at the end of a text is the one character over and over. -/
theorem dropEnd_append_replicate (c : Char) (s : Text) :
    ∃ n, s = dropEnd (· == c) s ++ List.replicate n c := by
  have hsame : ∀ d ∈ s.reverse.takeWhile (· == c), d = c := fun d hd =>
    beq_iff_eq.mp (List.all_eq_true.mp List.all_takeWhile d hd)
  refine ⟨(s.reverse.takeWhile (· == c)).length, ?_⟩
  rw [← List.reverse_replicate, ← List.eq_replicate_of_mem hsame, Text.dropEnd,
    ← List.reverse_append, List.takeWhile_append_dropWhile, List.reverse_reverse]

theorem FreeOf.dropEnd (h : FreeOf q s) : FreeOf q (dropEnd p s) := by
  intro c hc
  unfold Text.dropEnd at hc
  exact h c (List.mem_reverse.mp (List.dropWhile_subset p (List.mem_reverse.mp hc)))

theorem FreeOf.trim (h : FreeOf q s) : FreeOf q (trim s) := by
  have hdrop : FreeOf q (s.dropWhile isBlank) := fun c hc => h c (List.dropWhile_subset _ hc)
  exact hdrop.dropEnd

theorem FreeOf.trimGap (h : FreeOf q s) : FreeOf q (trimGap s) := by
  have hdrop : FreeOf q (s.dropWhile isGap) := fun c hc => h c (List.dropWhile_subset _ hc)
  exact hdrop.dropEnd

end DiceNotation.Text
