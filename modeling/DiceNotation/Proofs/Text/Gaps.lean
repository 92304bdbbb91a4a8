/-
  Spaces and tabs that are put into a text.

  `Spaced before after s t` says that `t` is `s` with gaps put in at one place, and that this place is a
  seam: the character in front of it is one of `before`, or the one behind it is one of `after`.  The
  ends of a text are seams too.  That is what makes the relation pass through a cut: wherever a text
  is cut, the place of the gaps stays a seam of the piece that it falls into, or becomes an end of it.

  1. A cut at the first mark leaves one of its two parts as it was (`Spaced.cut_first`), so both
     parts are spaced (`Spaced.upTo`, `Spaced.onward`), and so is what stands behind the mark
     (`Spaced.onward_cases`).
  2. By induction on the text in front of the gaps, a cut at every mark gives pieces that are spaced
     one by one (`Spaced.cut_tail`, `Spaced.split`).  A mark is never a gap.
  3. `strip` takes off both ends what `trim` and `trimGap` take off.  Either the gaps go with it, or
     they stand inside of what is left (`Spaced.strip_cases`).  Then both texts are `Marred`: there is
     a character of `before` in them, or one of `after` that is not their first.  A reader that
     takes no such text cannot tell them apart.
-/
import DiceNotation.Proofs.Text.Cutting
import Mathlib.Data.List.DropRight
import Mathlib.Data.List.Forall2
import Mathlib.Data.List.TakeWhile

namespace DiceNotation.Text

variable {before after before' after' p : Char → Bool} {a b gaps s t : Text}

/-! ## Seams -/

/-- The text is empty, or its last character is one that `p` accepts. -/
def EndsWith (p : Char → Bool) (s : Text) : Prop :=
  ∀ c ∈ s.getLast?, p c = true

/-- A place between two texts where gaps make no difference. -/
def Seam (before after : Char → Bool) (a b : Text) : Prop :=
  EndsWith before a ∨ OpensWith after b

theorem endsWith_nil : EndsWith p [] :=
  fun c h => absurd h (Option.not_mem_none c)

theorem endsWith_of_mem {c : Char} (hc : c ∈ s.getLast?) (h : p c = true) : EndsWith p s := by
  intro d hd
  rwa [← Option.mem_unique hc hd]

theorem opensWith_of_mem {c : Char} (hc : c ∈ s.head?) (h : p c = true) : OpensWith p s := by
  intro d hd
  rwa [← Option.mem_unique hc hd]

theorem EndsWith.of_isSuffix (h : EndsWith p s) (hpart : a <:+ s) : EndsWith p a := by
  obtain ⟨front, rfl⟩ := hpart
  intro c hc
  refine h c ?_
  rw [List.getLast?_append, Option.mem_def.mp hc]
  rfl

theorem OpensWith.of_isPrefix (h : OpensWith p s) (hpart : a <+: s) : OpensWith p a := by
  obtain ⟨rest, rfl⟩ := hpart
  intro c hc
  refine h c ?_
  rw [List.head?_append, Option.mem_def.mp hc]
  rfl

theorem Seam.of_isSuffix {a' : Text} (h : Seam before after a b) (hpart : a' <:+ a) :
    Seam before after a' b :=
  h.imp_left fun hend => hend.of_isSuffix hpart

theorem Seam.of_isPrefix {b' : Text} (h : Seam before after a b) (hpart : b' <+: b) :
    Seam before after a b' :=
  h.imp_right fun hopen => hopen.of_isPrefix hpart

/-! ## Spaced texts -/

/-- The second text is the first with gaps put in at a seam. -/
def Spaced (before after : Char → Bool) (s t : Text) : Prop :=
  ∃ a gaps b, s = a ++ b ∧ t = a ++ gaps ++ b ∧ (∀ c ∈ gaps, isGap c = true) ∧
    Seam before after a b

/-- What accepts neither a space nor a tab accepts no gap. -/
theorem freeOf_gaps (hp : FreeOf p [' ', '\t']) (hgaps : ∀ c ∈ gaps, isGap c = true) :
    FreeOf p gaps := by
  intro c hc
  have hgap := hgaps c hc
  simp only [isGap, Bool.or_eq_true, beq_iff_eq] at hgap
  rcases hgap with rfl | rfl
  · exact hp _ (by decide)
  · exact hp _ (by decide)

namespace Spaced

theorem refl (s : Text) : Spaced before after s s :=
  ⟨[], [], s, rfl, rfl, fun _ h => absurd h List.not_mem_nil, Or.inl endsWith_nil⟩

/-- Only the characters of the text itself matter for its seams. -/
theorem mono (h : Spaced before after s t) (hbefore : ∀ c ∈ s, before c = true → before' c = true)
    (hafter : ∀ c ∈ s, after c = true → after' c = true) : Spaced before' after' s t := by
  obtain ⟨a, gaps, b, rfl, rfl, hgaps, hseam⟩ := h
  refine ⟨a, gaps, b, rfl, rfl, hgaps, ?_⟩
  rcases hseam with hend | hopen
  · refine Or.inl fun c hc => hbefore c ?_ (hend c hc)
    exact List.mem_append_left b (List.mem_of_getLast? hc)
  · refine Or.inr fun c hc => hafter c ?_ (hopen c hc)
    exact List.mem_append_right a (List.mem_of_head? hc)

theorem isAllBlank_eq (h : Spaced before after s t) : isAllBlank s = isAllBlank t := by
  obtain ⟨a, gaps, b, rfl, rfl, hgaps, -⟩ := h
  have hblank : gaps.all isBlank = true :=
    List.all_eq_true.mpr fun c hc => isBlank_of_isGap (hgaps c hc)
  simp only [isAllBlank, List.all_append, hblank, Bool.and_true]

end Spaced

/-! ## Cutting at the first mark -/

/-- A text with a mark in it, taken apart at the first one. -/
theorem exists_of_not_freeOf (h : ¬ FreeOf p s) :
    ∃ front c rest, s = front ++ c :: rest ∧ FreeOf p front ∧ p c = true := by
  have hwhole := upTo_append_onward p s
  have hopen := opensWith_onward p s
  cases hrest : onward p s with
  | nil =>
    rw [hrest, List.append_nil] at hwhole
    rw [← hwhole] at h
    exact absurd (freeOf_upTo p s) h
  | cons c rest =>
    rw [hrest] at hwhole hopen
    exact ⟨upTo p s, c, rest, hwhole.symm, freeOf_upTo p s, opensWith_cons.mp hopen⟩

theorem upTo_append_cons {c : Char} (h : FreeOf p a) (hc : p c = true) :
    upTo p (a ++ c :: b) = a := by
  rw [upTo_append h, upTo_of_opensWith (opensWith_cons.mpr hc), List.append_nil]

theorem onward_append_cons {c : Char} (h : FreeOf p a) (hc : p c = true) :
    onward p (a ++ c :: b) = c :: b := by
  rw [onward_append h, onward_of_opensWith (opensWith_cons.mpr hc)]

namespace Spaced

/-- **A cut at the first mark leaves one part as it was.**  The gaps stand before the mark, or
    behind it. -/
theorem cut_first (hp : FreeOf p [' ', '\t']) (h : Spaced before after s t) :
    (Spaced before after (upTo p s) (upTo p t) ∧ onward p s = onward p t) ∨
    (upTo p s = upTo p t ∧ ∃ c s' t', onward p s = c :: s' ∧ onward p t = c :: t' ∧
      Spaced before after s' t' ∧ Spaced before after (c :: s') (c :: t')) := by
  obtain ⟨a, gaps, b, rfl, rfl, hgaps, hseam⟩ := h
  by_cases ha : FreeOf p a
  · have hfree : FreeOf p (a ++ gaps) := freeOf_append.mpr ⟨ha, freeOf_gaps hp hgaps⟩
    left
    rw [upTo_append ha, upTo_append hfree, onward_append ha, onward_append hfree]
    refine ⟨⟨a, gaps, upTo p b, rfl, rfl, hgaps, ?_⟩, rfl⟩
    exact hseam.of_isPrefix (List.takeWhile_prefix _)
  · obtain ⟨front, c, rest, rfl, hfront, hc⟩ := exists_of_not_freeOf ha
    right
    simp only [List.append_assoc, List.cons_append]
    rw [upTo_append_cons hfront hc, upTo_append_cons hfront hc, onward_append_cons hfront hc,
      onward_append_cons hfront hc]
    have hmark : Seam before after (c :: rest) b := hseam.of_isSuffix (List.suffix_append _ _)
    have hrest : Seam before after rest b := hmark.of_isSuffix (List.suffix_cons _ _)
    refine ⟨rfl, c, rest ++ b, rest ++ (gaps ++ b), rfl, rfl, ?_, ?_⟩
    · exact ⟨rest, gaps, b, rfl, (List.append_assoc _ _ _).symm, hgaps, hrest⟩
    · exact ⟨c :: rest, gaps, b, rfl, (List.append_assoc (c :: rest) gaps b).symm, hgaps, hmark⟩

theorem upTo (hp : FreeOf p [' ', '\t']) (h : Spaced before after s t) :
    Spaced before after (upTo p s) (upTo p t) := by
  rcases h.cut_first hp with ⟨hfront, -⟩ | ⟨hfront, -⟩
  · exact hfront
  · rw [hfront]
    exact refl _

theorem onward (hp : FreeOf p [' ', '\t']) (h : Spaced before after s t) :
    Spaced before after (onward p s) (onward p t) := by
  rcases h.cut_first hp with ⟨-, hrest⟩ | ⟨-, c, s', t', hs, ht, -, hrest⟩
  · rw [hrest]
    exact refl _
  · rw [hs, ht]
    exact hrest

/-- Both texts have no mark, or what stands behind the first one is spaced. -/
theorem onward_cases (hp : FreeOf p [' ', '\t']) (h : Spaced before after s t) :
    (Text.onward p s = [] ∧ Text.onward p t = []) ∨
    ∃ c s' t', Text.onward p s = c :: s' ∧ Text.onward p t = c :: t' ∧
      Spaced before after s' t' := by
  rcases h.cut_first hp with ⟨-, hrest⟩ | ⟨-, c, s', t', hs, ht, hrest, -⟩
  · cases hs : Text.onward p s with
    | nil => exact Or.inl ⟨rfl, by rw [← hrest, hs]⟩
    | cons c s' => exact Or.inr ⟨c, s', s', rfl, by rw [← hrest, hs], refl s'⟩
  · exact Or.inr ⟨c, s', t', hs, ht, hrest⟩

end Spaced

/-! ## Cutting at every mark -/

section Marks

variable {α : Type} {mark : Char → Option α}

/-- **The pieces behind the marks are spaced one by one**, and the marks are the same.  Induction on
    the text in front of the gaps. -/
theorem Spaced.cut_tail (hmark : FreeOf (isMark mark) [' ', '\t']) (h : Spaced before after s t) :
    List.Forall₂ (fun x y => x.1 = y.1 ∧ Spaced before after x.2 y.2)
      (cut mark s).2 (cut mark t).2 := by
  obtain ⟨a, gaps, b, rfl, rfl, hgaps, hseam⟩ := h
  induction a with
  | nil =>
    rw [List.nil_append, List.nil_append, cut_append (freeOf_gaps hmark hgaps)]
    exact List.forall₂_same.mpr fun x _ => ⟨rfl, Spaced.refl x.2⟩
  | cons c a ih =>
    have hrest : Seam before after a b := hseam.of_isSuffix (List.suffix_cons _ _)
    simp only [List.cons_append]
    cases hc : mark c with
    | none =>
      rw [cut_cons_of_none hc, cut_cons_of_none hc]
      exact ih hrest
    | some x =>
      -- the piece behind this mark is what stands before the next one
      have hpiece : Spaced before after (a ++ b) (a ++ gaps ++ b) :=
        ⟨a, gaps, b, rfl, rfl, hgaps, hrest⟩
      rw [cut_cons_of_some hc, cut_cons_of_some hc, cut_fst, cut_fst]
      exact List.Forall₂.cons ⟨rfl, hpiece.upTo hmark⟩ (ih hrest)

theorem Spaced.cut_head (hmark : FreeOf (isMark mark) [' ', '\t']) (h : Spaced before after s t) :
    Spaced before after (cut mark s).1 (cut mark t).1 := by
  rw [cut_fst, cut_fst]
  exact h.upTo hmark

/-- The pieces between the marks are spaced one by one. -/
theorem Spaced.split (hp : FreeOf p [' ', '\t']) (h : Spaced before after s t) :
    List.Forall₂ (Spaced before after) (split p s) (split p t) := by
  have hmark : FreeOf (isMark fun c => if p c then some () else none) [' ', '\t'] := by
    intro c hc
    simp [isMark, hp c hc]
  refine List.Forall₂.cons (h.cut_head hmark) ?_
  rw [List.forall₂_map_left_iff, List.forall₂_map_right_iff]
  exact (h.cut_tail hmark).imp fun _ _ hxy => hxy.2

end Marks

/-! ## Trimming -/

/-- The text without the characters at either end for which `p` holds. -/
def strip (p : Char → Bool) (s : Text) : Text :=
  dropEnd p (s.dropWhile p)

theorem trim_eq_strip (s : Text) : trim s = strip isBlank s := rfl

theorem trimGap_eq_strip (s : Text) : trimGap s = strip isGap s := rfl

theorem dropWhile_append_of_eq_nil (h : a.dropWhile p = []) :
    (a ++ b).dropWhile p = b.dropWhile p := by
  rw [List.dropWhile_append, h, List.isEmpty_nil, if_pos rfl]

theorem dropWhile_append_of_ne_nil (h : a.dropWhile p ≠ []) :
    (a ++ b).dropWhile p = a.dropWhile p ++ b := by
  rw [List.dropWhile_append, if_neg (by simpa using h)]

theorem dropEnd_append_of_eq_nil (h : dropEnd p b = []) : dropEnd p (a ++ b) = dropEnd p a := by
  have hrev : b.reverse.dropWhile p = [] := List.reverse_eq_nil_iff.mp h
  rw [dropEnd, List.reverse_append, dropWhile_append_of_eq_nil hrev, dropEnd]

theorem dropEnd_append_of_ne_nil (h : dropEnd p b ≠ []) :
    dropEnd p (a ++ b) = a ++ dropEnd p b := by
  have hrev : b.reverse.dropWhile p ≠ [] := fun hnil => h (List.reverse_eq_nil_iff.mpr hnil)
  rw [dropEnd, List.reverse_append, dropWhile_append_of_ne_nil hrev, List.reverse_append,
    List.reverse_reverse, dropEnd]

theorem dropEnd_eq_rdropWhile (p : Char → Bool) (s : Text) : dropEnd p s = s.rdropWhile p := rfl

theorem dropEnd_eq_nil_iff : dropEnd p s = [] ↔ ∀ c ∈ s, p c = true := by
  rw [dropEnd_eq_rdropWhile, List.rdropWhile_eq_nil_iff]

theorem dropEnd_eq_self_iff : dropEnd p s = s ↔ ∀ c ∈ s.getLast?, p c = false := by
  rw [dropEnd_eq_rdropWhile, List.rdropWhile_eq_self_iff]
  constructor
  · intro h c hc
    obtain ⟨front, rfl⟩ := List.getLast?_eq_some_iff.mp hc
    have hlast := h (List.append_ne_nil_of_right_ne_nil _ (List.cons_ne_nil _ _))
    rw [List.getLast_concat] at hlast
    exact Bool.eq_false_iff.mpr hlast
  · intro h hne
    rw [h _ (List.getLast?_eq_some_getLast hne)]
    exact Bool.false_ne_true

/-- What is left has an end that stays. -/
theorem getLast?_dropEnd (p : Char → Bool) (s : Text) : ∀ c ∈ (dropEnd p s).getLast?, p c = false := by
  apply dropEnd_eq_self_iff.mp
  exact List.rdropWhile_idempotent p s

theorem dropEnd_isPrefix (p : Char → Bool) (s : Text) : dropEnd p s <+: s := by
  rw [dropEnd_eq_rdropWhile]
  exact List.rdropWhile_prefix p s

/-- **Dropping at the end takes the gaps along, or stops behind them.** -/
theorem dropEnd_gaps (hp : ∀ c, isGap c = true → p c = true)
    (hgaps : ∀ c ∈ gaps, isGap c = true) (a b : Text) :
    dropEnd p (a ++ b) = dropEnd p (a ++ gaps ++ b) ∨
    (dropEnd p b ≠ [] ∧ dropEnd p (a ++ b) = a ++ dropEnd p b ∧
      dropEnd p (a ++ gaps ++ b) = a ++ gaps ++ dropEnd p b) := by
  by_cases hb : dropEnd p b = []
  · have hnone : dropEnd p gaps = [] := dropEnd_eq_nil_iff.mpr fun c hc => hp c (hgaps c hc)
    left
    rw [dropEnd_append_of_eq_nil hb, dropEnd_append_of_eq_nil hb, dropEnd_append_of_eq_nil hnone]
  · exact Or.inr ⟨hb, dropEnd_append_of_ne_nil hb, dropEnd_append_of_ne_nil hb⟩

/-- **After trimming the gaps are gone, or they stand inside.** -/
theorem Spaced.strip_cases (hp : ∀ c, isGap c = true → p c = true) (h : Spaced before after s t) :
    strip p s = strip p t ∨
    ∃ a gaps b, a ≠ [] ∧ b ≠ [] ∧ strip p s = a ++ b ∧ strip p t = a ++ gaps ++ b ∧
      (∀ c ∈ gaps, isGap c = true) ∧ Seam before after a b := by
  obtain ⟨a, gaps, b, rfl, rfl, hgaps, hseam⟩ := h
  unfold strip
  by_cases ha : a.dropWhile p = []
  · have hnone : gaps.dropWhile p = [] :=
      List.dropWhile_eq_nil_iff.mpr fun c hc => hp c (hgaps c hc)
    left
    rw [List.append_assoc, dropWhile_append_of_eq_nil ha, dropWhile_append_of_eq_nil ha,
      dropWhile_append_of_eq_nil hnone]
  · rw [List.append_assoc, dropWhile_append_of_ne_nil ha, dropWhile_append_of_ne_nil ha,
      ← List.append_assoc]
    rcases dropEnd_gaps hp hgaps (a.dropWhile p) b with heq | ⟨hb, hs, ht⟩
    · exact Or.inl heq
    · refine Or.inr ⟨a.dropWhile p, gaps, dropEnd p b, ha, hb, hs, ht, hgaps, ?_⟩
      exact (hseam.of_isSuffix (List.dropWhile_suffix p)).of_isPrefix (dropEnd_isPrefix p b)

/-- A text with a character of `before` in it, or with one of `after` that is not the first. -/
def Marred (before after : Char → Bool) (s : Text) : Prop :=
  (∃ c ∈ s, before c = true) ∨ ∃ c ∈ s.tail, after c = true

theorem Marred.exists_mem (h : Marred p p s) : ∃ c ∈ s, p c = true := by
  rcases h with hsome | ⟨c, hc, hp⟩
  · exact hsome
  · exact ⟨c, List.mem_of_mem_tail hc, hp⟩

theorem Seam.marred (h : Seam before after a b) (ha : a ≠ []) (hb : b ≠ []) (gaps : Text) :
    Marred before after (a ++ gaps ++ b) := by
  rcases h with hend | hopen
  · have hlast : a.getLast ha ∈ a := List.getLast_mem ha
    refine Or.inl ⟨a.getLast ha, ?_, hend _ (List.getLast?_eq_some_getLast ha)⟩
    exact List.mem_append_left _ (List.mem_append_left _ hlast)
  · obtain ⟨c, b, rfl⟩ := List.exists_cons_of_ne_nil hb
    obtain ⟨d, a, rfl⟩ := List.exists_cons_of_ne_nil ha
    refine Or.inr ⟨c, ?_, opensWith_cons.mp hopen⟩
    show c ∈ a ++ gaps ++ c :: b
    exact List.mem_append_right _ List.mem_cons_self

namespace Spaced

theorem strip (hp : ∀ c, isGap c = true → p c = true) (h : Spaced before after s t) :
    Spaced before after (strip p s) (strip p t) := by
  rcases h.strip_cases hp with heq | ⟨a, gaps, b, -, -, hs, ht, hgaps, hseam⟩
  · rw [heq]
    exact refl _
  · exact ⟨a, gaps, b, hs, ht, hgaps, hseam⟩

theorem strip_eq_nil_iff (hp : ∀ c, isGap c = true → p c = true) (h : Spaced before after s t) :
    Text.strip p s = [] ↔ Text.strip p t = [] := by
  rcases h.strip_cases hp with heq | ⟨a, gaps, b, ha, -, hs, ht, -, -⟩
  · rw [heq]
  · simp [hs, ht, ha]

/-- **What takes no marred text cannot tell the trimmed texts apart.** -/
theorem strip_marred (hp : ∀ c, isGap c = true → p c = true) (h : Spaced before after s t) :
    Text.strip p s = Text.strip p t ∨
    (Marred before after (Text.strip p s) ∧ Marred before after (Text.strip p t)) := by
  rcases h.strip_cases hp with heq | ⟨a, gaps, b, ha, hb, hs, ht, -, hseam⟩
  · exact Or.inl heq
  · have hplain := hseam.marred ha hb []
    rw [List.append_nil] at hplain
    rw [hs, ht]
    exact Or.inr ⟨hplain, hseam.marred ha hb gaps⟩

end Spaced

end DiceNotation.Text
