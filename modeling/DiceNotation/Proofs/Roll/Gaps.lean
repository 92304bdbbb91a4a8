/-
  Gaps around the characters that cut an expression mean nothing.

  Put spaces and tabs into an expression, right in front of or right behind a structural character:
  the roll that is read has the same dice, steps, groups and format, or the same fault is found,
  though it may quote the text with the gaps in it (`Roll.read_gaps`).

  1. The readers at the leaves trim their text first, so they see the gaps only where these stand
     inside, next to a structural character.  No number has such a character in it, but for a sign,
     and that stands in front: the text with the gaps is refused as the text without them
     (`Numeral.digits?_spaced`, `Numeral.signed?_spaced`, `operand?_spaced`).
  2. A sign is an operator, and a piece between two operators has none.  So `+` and `-` are like the
     other structural characters there (`Gapped.firm`).
  3. In the argument of a directive they are not: `> -5` is a limit and `> - 5` is none.  That is the
     one place that is left out, behind a sign that stands behind a directive.
  4. Everything above the leaves is a cut, and the pieces of a cut are spaced one by one.  So every
     reader keeps what is spaced alike: `Dice.read_alike`, `Step.scan_alike`, `Step.readAll_alike`,
     `Group.readAll_alike`, `Format.read_alike`.
-/
import DiceNotation.Proofs.Alike
import DiceNotation.Proofs.Roll.WellFormed
import DiceNotation.Proofs.Text.Gaps

namespace DiceNotation

open Text

/-! ## Structural characters -/

/-- The characters that cut an expression, or a part of one. -/
def structural : Text :=
  ['d', '+', '-', '*', '/', 'i', ',', ';', ':', 'l', 's', '>', '<']

/-- A character that cuts an expression, or a part of one. -/
def isStructural (c : Char) : Bool :=
  structural.contains c

/-- A character that can be the sign of a number. -/
def isSign (c : Char) : Bool :=
  c == '+' || c == '-'

/-- A structural character that no number has in it, not even in front. -/
def isFirm (c : Char) : Bool :=
  isStructural c && !isSign c

/-- A character that a number may have in it. -/
def isNumeric (c : Char) : Bool :=
  c.isDigit || isSign c || c == '.' || c == 'e' || c == 'E'

theorem isFirm_of_not_isSign {c : Char} (h : isStructural c = true) (hsign : ¬ isSign c = true) :
    isFirm c = true := by
  simp only [isFirm, h, Bool.eq_false_iff.mpr hsign, Bool.not_false, Bool.and_self]

theorem isDigit_of_isStructural {c : Char} (h : isStructural c = true) : c.isDigit = false := by
  have hfree : FreeOf Char.isDigit structural := by decide
  exact hfree c (List.contains_iff_mem.mp h)

theorem isStructural_of_isFirm {c : Char} (h : isFirm c = true) : isStructural c = true :=
  (Bool.and_eq_true_iff.mp h).1

theorem isNumeric_of_isFirm {c : Char} (h : isFirm c = true) : isNumeric c = false := by
  have hfree : FreeOf (fun c => isFirm c && isNumeric c) structural := by decide
  have hboth := hfree c (List.contains_iff_mem.mp (isStructural_of_isFirm h))
  simpa only [h, Bool.true_and] using hboth

theorem isSigil_of_isSign {c : Char} (h : isSign c = true) : Operator.isSigil c = true := by
  simp only [isSign, Bool.or_eq_true, beq_iff_eq] at h
  rcases h with rfl | rfl
  · rfl
  · rfl

/-- The second text is the first with gaps put in next to a structural character. -/
abbrev Gapped (s t : Text) : Prop :=
  Spaced isStructural isStructural s t

variable {s t : Text}

/-- **Between operators every structural character is firm.** -/
theorem Gapped.firm (h : Gapped s t) (hfree : s.FreeOf Operator.isSigil) :
    Spaced isFirm isFirm s t := by
  have hfirm : ∀ c ∈ s, isStructural c = true → isFirm c = true := by
    intro c hc hstructural
    refine isFirm_of_not_isSign hstructural fun hsign => ?_
    have hnone := hfree c hc
    rw [isSigil_of_isSign hsign] at hnone
    cases hnone
  exact h.mono hfirm hfirm

theorem Text.Spaced.weaken (h : Spaced isFirm isFirm s t) : Spaced isFirm isStructural s t :=
  h.mono (fun _ _ hc => hc) fun _ _ hc => isStructural_of_isFirm hc

/-! ## Numbers -/

namespace Numeral

theorem isDigit_of_digits? {n : Nat} (h : digits? s = some n) : ∀ c ∈ s, c.isDigit = true :=
  (digits?_eq_some_iff.mp h).1.2

theorem isDigit_behind_sign {c : Char} (hc : isSign c = true) (h : ∀ d ∈ s, d.isDigit = true) :
    (∀ d ∈ c :: s, d.isDigit = true ∨ isSign d = true) ∧ ∀ d ∈ (c :: s).tail, d.isDigit = true := by
  refine ⟨fun d hd => ?_, h⟩
  rcases List.mem_cons.mp hd with rfl | hd
  · exact Or.inr hc
  · exact Or.inl (h d hd)

/-- An integer is digits behind at most one sign. -/
theorem isDigit_of_plain? {i : Int} (h : plain? s = some i) :
    (∀ c ∈ s, c.isDigit = true ∨ isSign c = true) ∧ ∀ c ∈ s.tail, c.isDigit = true := by
  cases plain?_eq_some_iff.mp h with
  | zero =>
    refine ⟨fun c hc => ?_, fun c hc => absurd hc List.not_mem_nil⟩
    rw [List.mem_singleton.mp hc]
    exact Or.inl rfl
  | bare hs _ =>
    exact ⟨fun c hc => Or.inl (hs.2 c hc), fun c hc => hs.2 c (List.mem_of_mem_tail hc)⟩
  | plus hs _ => exact isDigit_behind_sign rfl hs.2
  | minus hs _ => exact isDigit_behind_sign rfl hs.2

theorem digits?_eq_none (h : Marred isStructural isStructural s) : digits? s = none := by
  cases hs : digits? s with
  | none => rfl
  | some n =>
    obtain ⟨c, hc, hmark⟩ := h.exists_mem
    have hdigit := isDigit_of_digits? hs c hc
    rw [isDigit_of_isStructural hmark] at hdigit
    cases hdigit

theorem signed?_eq_none (h : Marred isFirm isStructural s) : signed? s = none := by
  cases hs : signed? s with
  | none => rfl
  | some x =>
    obtain ⟨hall, htail⟩ := isDigit_of_plain? (plain?_of_signed? hs)
    rcases h with ⟨c, hc, hmark⟩ | ⟨c, hc, hmark⟩
    · obtain ⟨hstructural, hsign⟩ := Bool.and_eq_true_iff.mp hmark
      rcases hall c hc with hdigit | hsign'
      · exact absurd hdigit (by simp [isDigit_of_isStructural hstructural])
      · exact absurd hsign (by simp [hsign'])
    · exact absurd (htail c hc) (by simp [isDigit_of_isStructural hmark])

theorem digits?_spaced (h : Gapped s t) : digits? s.trimGap = digits? t.trimGap := by
  rw [trimGap_eq_strip, trimGap_eq_strip]
  rcases h.strip_marred (fun _ hc => hc) with heq | ⟨hs, ht⟩
  · rw [heq]
  · rw [digits?_eq_none hs, digits?_eq_none ht]

theorem signed?_spaced {p : Char → Bool} (hp : ∀ c, isGap c = true → p c = true)
    (h : Spaced isFirm isStructural s t) : signed? (strip p s) = signed? (strip p t) := by
  rcases h.strip_marred hp with heq | ⟨hs, ht⟩
  · rw [heq]
  · rw [signed?_eq_none hs, signed?_eq_none ht]

end Numeral

/-! ## Operands -/

namespace Binary64

theorem isNumeric_of_isDigit {c : Char} (h : c.isDigit = true) : isNumeric c = true := by
  simp only [isNumeric, h, Bool.true_or]

/-- A sign in front is all that is taken. -/
theorem isNumeric_of_takeSign (h : ∀ c ∈ (takeSign s).2, isNumeric c = true) :
    ∀ c ∈ s, isNumeric c = true := by
  unfold takeSign at h
  split at h
  · exact List.forall_mem_cons.mpr ⟨rfl, h⟩
  · exact List.forall_mem_cons.mpr ⟨rfl, h⟩
  · exact h

theorem isNumeric_of_exponent? {e : Int} (h : exponent? s = some e) :
    ∀ c ∈ s, isNumeric c = true := by
  unfold exponent? at h
  split at h
  · exact fun c hc => absurd hc List.not_mem_nil
  · rename_i c rest
    split at h
    · rename_i hc
      obtain ⟨n, hn, -⟩ := Option.map_eq_some_iff.mp h
      refine List.forall_mem_cons.mpr ⟨?_, isNumeric_of_takeSign fun d hd => ?_⟩
      · rcases hc with rfl | rfl <;> rfl
      · exact isNumeric_of_isDigit (Numeral.isDigit_of_digits? hn d hd)
    · cases h

/-- What is read as a decimal is digits, a point and an exponent, and each of these is numeric. -/
theorem isNumeric_of_decimal? {d : Decimal} (h : decimal? s = some d) :
    ∀ c ∈ s, isNumeric c = true := by
  have hdigits : ∀ t : Text, ∀ c ∈ t.takeWhile Char.isDigit, isNumeric c = true :=
    fun t c hc => isNumeric_of_isDigit (List.all_eq_true.mp List.all_takeWhile c hc)
  have hsplit : ∀ t : Text, (∀ c ∈ t.dropWhile Char.isDigit, isNumeric c = true) →
      ∀ c ∈ t, isNumeric c = true := by
    intro t ht
    rw [← List.takeWhile_append_dropWhile (p := Char.isDigit) (l := t)]
    exact List.forall_mem_append.mpr ⟨hdigits t, ht⟩
  refine hsplit s ?_
  unfold decimal? at h
  simp only at h
  split at h
  · rename_i fraction hrest
    rw [hrest]
    split at h
    · cases h
    · obtain ⟨e, he, -⟩ := Option.map_eq_some_iff.mp h
      exact List.forall_mem_cons.mpr ⟨rfl, hsplit fraction (isNumeric_of_exponent? he)⟩
  · split at h
    · cases h
    · obtain ⟨e, he, -⟩ := Option.map_eq_some_iff.mp h
      exact isNumeric_of_exponent? he

end Binary64

theorem isNumeric_of_operand? {x : Binary64} (h : operand? s = some x) :
    ∀ c ∈ s, isNumeric c = true := by
  obtain ⟨hread, -⟩ := Option.filter_eq_some_iff.mp h
  unfold Binary64.ofText? at hread
  obtain ⟨d, hd, -⟩ := Option.map_eq_some_iff.mp hread
  exact Binary64.isNumeric_of_takeSign (Binary64.isNumeric_of_decimal? hd)

theorem operand?_eq_none (h : Marred isFirm isFirm s) : operand? s = none := by
  cases hs : operand? s with
  | none => rfl
  | some x =>
    obtain ⟨c, hc, hmark⟩ := h.exists_mem
    have hnumeric := isNumeric_of_operand? hs c hc
    rw [isNumeric_of_isFirm hmark] at hnumeric
    cases hnumeric

theorem operand?_spaced (h : Spaced isFirm isFirm s t) : operand? s.trim = operand? t.trim := by
  rw [trim_eq_strip, trim_eq_strip]
  rcases h.strip_marred (fun _ => isBlank_of_isGap) with heq | ⟨hs, ht⟩
  · rw [heq]
  · rw [operand?_eq_none hs, operand?_eq_none ht]

/-! ## The dice clause -/

namespace Dice

theorem countOf_spaced (h : Gapped s t) : countOf s = countOf t := by
  unfold countOf
  rw [Numeral.digits?_spaced h]

theorem bounds?_spaced (h : Spaced isFirm isFirm s t) : bounds? s = bounds? t := by
  have htrim : Spaced isFirm isFirm s.trimGap t.trimGap := h.strip fun _ hc => hc
  have hnil : s.trimGap = [] ↔ t.trimGap = [] := h.strip_eq_nil_iff fun _ hc => hc
  have hwhole : Numeral.signed? s.trimGap = Numeral.signed? t.trimGap :=
    Numeral.signed?_spaced (fun _ hc => hc) h.weaken
  have hlow : Numeral.signed? (Text.trimGap (s.trimGap.upTo (· == ':')))
      = Numeral.signed? (Text.trimGap (t.trimGap.upTo (· == ':'))) :=
    Numeral.signed?_spaced (fun _ hc => hc) (htrim.upTo (by decide)).weaken
  unfold bounds?
  simp only
  by_cases hs : s.trimGap = []
  · rw [if_pos hs, if_pos (hnil.mp hs)]
  · rw [if_neg hs, if_neg (mt hnil.mpr hs)]
    rcases htrim.onward_cases (p := (· == ':')) (by decide) with
      ⟨hu, hv⟩ | ⟨c, right, right', hu, hv, hright⟩
    · simp only [hu, hv, hwhole]
    · have hhigh : Numeral.signed? (Text.trimGap right) = Numeral.signed? (Text.trimGap right') :=
        Numeral.signed?_spaced (fun _ hc => hc) hright.weaken
      simp only [hu, hv, hlow, hhigh]

/-- **A clause without operators reads alike.** -/
theorem read_alike (hfree : s.FreeOf Operator.isSigil) (h : Gapped s t) :
    Alike Eq (read s) (read t) := by
  have hcount : countOf (s.upTo (· == 'd')) = countOf (t.upTo (· == 'd')) :=
    countOf_spaced (h.upTo (by decide))
  unfold read
  rcases (h.firm hfree).onward_cases (p := (· == 'd')) (by decide) with
    ⟨hs, ht⟩ | ⟨c, range, range', hs, ht, hrange⟩
  · rw [hs, ht]
    exact Alike.refl _
  · simp only [hs, ht, hcount, bounds?_spaced hrange]
    by_cases hmany : maxDiceCount < countOf (t.upTo (· == 'd'))
    · rw [if_pos hmany, if_pos hmany]
      exact Alike.refl _
    · rw [if_neg hmany, if_neg hmany]
      cases bounds? range' with
      | none => exact Alike.error rfl
      | some bounds => exact Alike.refl _

end Dice

/-! ## Steps -/

namespace Step

/-- The pieces of a text between its operators, each with its operator: spaced, and without any
    operator inside. -/
theorem pieces_spaced (h : Gapped s t) :
    List.Forall₂ (fun x y => x.2.FreeOf Operator.isSigil ∧ x.1 = y.1 ∧ Gapped x.2 y.2)
      (s.cut Operator.ofSigil?).2 (t.cut Operator.ofSigil?).2 := by
  refine (List.forall₂_and_left _ _).mpr ⟨fun x hx => ?_, h.cut_tail (by decide)⟩
  exact (cut_pieces_freeOf (q := fun _ => false) (fun _ _ => rfl) hx).1

theorem leading_freeOf (s : Text) : (s.cut Operator.ofSigil?).1.FreeOf Operator.isSigil := by
  rw [cut_fst]
  exact freeOf_upTo _ _

theorem close_alike (rule : Dangling) (operator : Operator) (atStart : Bool)
    (hfree : s.FreeOf Operator.isSigil) (h : Gapped s t) :
    Alike Eq (close rule operator atStart s) (close rule operator atStart t) := by
  have hfirm := h.firm hfree
  have hnil : s.trim = [] ↔ t.trim = [] := hfirm.strip_eq_nil_iff fun _ => isBlank_of_isGap
  have hoperand : operand? s.trim = operand? t.trim := operand?_spaced hfirm
  unfold close
  cases hs : s.trim with
  | nil =>
    rw [hnil.mp hs]
    simp only
    by_cases hrefused : rule = .refused ∧ (!atStart) = true
    · rw [if_pos hrefused, if_pos hrefused]
      exact Alike.error rfl
    · rw [if_neg hrefused, if_neg hrefused]
      exact Alike.refl _
  | cons c u =>
    cases ht : t.trim with
    | nil => exact absurd (hnil.mpr ht) (by rw [hs]; exact List.cons_ne_nil c u)
    | cons d v =>
      rw [hs, ht] at hoperand
      simp only [hoperand]
      cases operand? (d :: v) with
      | none => exact Alike.error rfl
      | some value => exact Alike.refl _

theorem closeAll_alike (rule : Dangling) (leading : Operator) (atStart : Bool) (h : Gapped s t) :
    Alike Eq (closeAll rule leading atStart (s.cut Operator.ofSigil?))
      (closeAll rule leading atStart (t.cut Operator.ofSigil?)) := by
  have hhead : Gapped (s.cut Operator.ofSigil?).1 (t.cut Operator.ofSigil?).1 :=
    h.cut_head (by decide)
  refine (close_alike rule leading atStart (leading_freeOf s) hhead).bind_eq fun first => ?_
  refine (Alike.mapM_eq (pieces_spaced h) ?_).bind_eq fun others => Alike.refl _
  rintro ⟨operator, piece⟩ ⟨_, piece'⟩ ⟨hfree, rfl, hpiece⟩
  exact close_alike rule operator false hfree hpiece

/-- **A run of steps reads alike**, up to its first `i`. -/
theorem scan_alike (rule : Dangling) (leading : Operator) (h : Gapped s t) :
    Alike Eq (scan rule leading s) (scan rule leading t) := by
  rw [scan_eq_closeAll, scan_eq_closeAll]
  exact closeAll_alike rule leading true (h.upTo (by decide))

/-- **The steps for every die read alike.** -/
theorem readAll_alike (h : Gapped s t) : Alike Eq (readAll s) (readAll t) := by
  have hhead : Gapped (s.cut Operator.ofSigil?).1 (t.cut Operator.ofSigil?).1 :=
    h.cut_head (by decide)
  have hpieces : List.Forall₂ (fun x y => x.1 = y.1 ∧ Gapped x.2 y.2)
      ((Operator.add, (s.cut Operator.ofSigil?).1) :: (s.cut Operator.ofSigil?).2)
      ((Operator.add, (t.cut Operator.ofSigil?).1) :: (t.cut Operator.ofSigil?).2) :=
    List.Forall₂.cons ⟨rfl, hhead⟩ (h.cut_tail (by decide))
  refine (Alike.mapM_eq hpieces ?_).bind_eq fun steps => Alike.refl _
  rintro ⟨operator, piece⟩ ⟨_, piece'⟩ ⟨rfl, hpiece⟩
  exact scan_alike .ignored operator hpiece

end Step

/-! ## Groups -/

namespace Group

theorem target?_spaced (h : Gapped s t) : target? s = target? t := by
  unfold target?
  rw [Numeral.digits?_spaced h]

theorem readTargets_alike (h : Gapped s t) : Alike Eq (readTargets s) (readTargets t) := by
  have hentries : List.Forall₂ Gapped (s.split (· == ',')) (t.split (· == ',')) :=
    h.split (by decide)
  refine (Alike.mapM_eq hentries ?_).bind_eq fun targets => Alike.refl _
  intro entry entry' hentry
  rw [target?_spaced hentry]
  cases target? entry' with
  | none => exact Alike.error rfl
  | some target => exact Alike.refl _

theorem dropClosingComma_append {a b : Text} (hb : b ≠ []) :
    dropClosingComma (a ++ b) = a ++ dropClosingComma b := by
  unfold dropClosingComma
  rw [List.getLast?_append_of_ne_nil a hb, List.dropLast_append_of_ne_nil hb]
  split
  · rfl
  · rfl

theorem dropClosingComma_isPrefix (s : Text) : dropClosingComma s <+: s := by
  unfold dropClosingComma
  split
  · exact List.dropLast_prefix s
  · exact List.prefix_rfl

/-- The comma that closes a list of targets is found behind the blanks that follow it, so gaps
    between the two are gone before it is looked for. -/
theorem dropClosingComma_spaced (h : Gapped s t) :
    Gapped (dropClosingComma (Text.trimEnd s)) (dropClosingComma (Text.trimEnd t)) := by
  obtain ⟨a, gaps, b, rfl, rfl, hgaps, hseam⟩ := h
  rcases dropEnd_gaps (fun _ => isBlank_of_isGap) hgaps a b with heq | ⟨hb, hs, ht⟩
  · rw [Text.trimEnd, heq]
    exact Spaced.refl _
  · rw [Text.trimEnd, Text.trimEnd, hs, ht, dropClosingComma_append hb, dropClosingComma_append hb]
    refine ⟨a, gaps, _, rfl, rfl, hgaps, ?_⟩
    exact (hseam.of_isPrefix (dropEnd_isPrefix isBlank b)).of_isPrefix (dropClosingComma_isPrefix _)

theorem parts_spaced (h : Gapped s t) :
    Gapped (parts s).1 (parts t).1 ∧ Gapped (parts s).2 (parts t).2 := by
  unfold parts
  rcases h.onward_cases (p := (· == ':')) (by decide) with
    ⟨hs, ht⟩ | ⟨c, steps, steps', hs, ht, hsteps⟩
  · rw [hs, ht]
    exact ⟨dropClosingComma_spaced (h.upTo (by decide)), h.onward (by decide)⟩
  · rw [hs, ht]
    exact ⟨h.upTo (by decide), hsteps⟩

theorem read_alike (h : Gapped s t) : Alike Eq (read s) (read t) := by
  obtain ⟨htargets, hsteps⟩ := parts_spaced h
  refine (readTargets_alike htargets).bind_eq fun targets => ?_
  exact (Step.scan_alike .refused .add hsteps).bind_eq fun steps => Alike.refl _

/-- **The groups read alike.** -/
theorem readAll_alike (h : Gapped s t) : Alike Eq (readAll s) (readAll t) := by
  have hpieces : List.Forall₂ Gapped
      ((s.split isGroupDelimiter).filter fun piece => !piece.isAllBlank)
      ((t.split isGroupDelimiter).filter fun piece => !piece.isAllBlank) := by
    refine List.rel_filter ?_ (h.split (by decide))
    intro piece piece' hpiece
    simp only [hpiece.isAllBlank_eq]
  exact Alike.mapM_eq hpieces fun piece piece' hpiece => read_alike hpiece

end Group

/-! ## The format -/

namespace Format

theorem withThreshold_alike {u v : Text} (format : Format) (directive : Directive) (side : Side)
    (hnil : u = [] ↔ v = []) (hnumber : Numeral.signed? u = Numeral.signed? v) :
    Alike Eq (format.withThreshold directive side u) (format.withThreshold directive side v) := by
  unfold withThreshold
  rw [hnumber]
  by_cases hu : u = []
  · rw [if_pos hu, if_pos (hnil.mp hu)]
    exact Alike.refl _
  · rw [if_neg hu, if_neg (mt hnil.mpr hu)]
    cases Numeral.signed? v with
    | none => exact Alike.error rfl
    | some limit => exact Alike.refl _

/-- Only whether there is an argument and which integer it says matters to a directive. -/
theorem withDirective_alike {u v : Text} (format : Format) (directive : Directive)
    (hnil : u = [] ↔ v = []) (hnumber : Numeral.signed? u = Numeral.signed? v) :
    Alike Eq (format.withDirective directive u) (format.withDirective directive v) := by
  cases directive with
  | sum => exact Alike.refl _
  | greater => exact withThreshold_alike format .greater .upward hnil hnumber
  | less => exact withThreshold_alike format .less .downward hnil hnumber
  | list =>
    simp only [withDirective, hnumber]
    by_cases hu : u = []
    · rw [if_pos hu, if_pos (hnil.mp hu)]
      exact Alike.refl _
    · rw [if_neg hu, if_neg (mt hnil.mpr hu)]
      cases (Numeral.signed? v).filter (0 < ·) with
      | none => exact Alike.error rfl
      | some size => exact Alike.refl _

/-- Directives read alike when each argument is spaced and no gap stands behind a sign. -/
theorem ofDirectives_alike {directives directives' : List (Directive × Text)}
    (h : List.Forall₂ (fun x y => x.1 = y.1 ∧ Spaced isFirm isStructural x.2 y.2)
      directives directives') : Alike Eq (ofDirectives directives) (ofDirectives directives') := by
  refine Alike.foldlM h ?_ plain
  rintro format ⟨directive, argument⟩ ⟨_, argument'⟩ ⟨rfl, hargument⟩
  refine withDirective_alike format directive ?_ ?_
  · exact hargument.strip_eq_nil_iff fun _ => isBlank_of_isGap
  · exact Numeral.signed?_spaced (fun _ => isBlank_of_isGap) hargument

/-- The directives of an expression and of the same expression with gaps in it, unless the gaps stand
    behind a sign that stands behind a directive. -/
theorem directives_spaced {a gaps b : Text} (hgaps : ∀ c ∈ gaps, isGap c = true)
    (hseam : Seam isStructural isStructural a b)
    (hsign : ¬ ((∃ c ∈ a.getLast?, isSign c = true) ∧ ∃ c ∈ a, Directive.isSigil c = true)) :
    List.Forall₂ (fun x y => x.1 = y.1 ∧ Spaced isFirm isStructural x.2 y.2)
      ((a ++ b).cut Directive.ofSigil?).2 ((a ++ gaps ++ b).cut Directive.ofSigil?).2 := by
  have hmark : FreeOf (isMark Directive.ofSigil?) [' ', '\t'] := by decide
  by_cases ha : FreeOf Directive.isSigil a
  · -- the gaps stand before the first directive
    have hfront : FreeOf (isMark Directive.ofSigil?) (a ++ gaps) :=
      freeOf_append.mpr ⟨ha, freeOf_gaps hmark hgaps⟩
    rw [cut_append hfront, cut_append ha]
    exact List.forall₂_same.mpr fun x _ => ⟨rfl, Spaced.refl x.2⟩
  · -- they stand behind it, so what is in front of them is no sign
    obtain ⟨front, c, rest, rfl, -, hc⟩ := exists_of_not_freeOf ha
    have hfirm : Seam isFirm isStructural (front ++ c :: rest) b := by
      refine hseam.imp_left fun hend d hd => isFirm_of_not_isSign (hend d hd) fun hd' => ?_
      exact hsign ⟨⟨d, hd, hd'⟩, c, List.mem_append_right _ List.mem_cons_self, hc⟩
    exact Spaced.cut_tail hmark ⟨_, gaps, b, rfl, rfl, hgaps, hfirm⟩

/-- **The format reads alike**, and the text in front of it is spaced. -/
theorem read_alike {a gaps b : Text} (hgaps : ∀ c ∈ gaps, isGap c = true)
    (hseam : Seam isStructural isStructural a b)
    (hsign : ¬ ((∃ c ∈ a.getLast?, isSign c = true) ∧ ∃ c ∈ a, Directive.isSigil c = true)) :
    Alike (fun x y => Gapped x.1 y.1 ∧ x.2 = y.2) (read (a ++ b)) (read (a ++ gaps ++ b)) := by
  have hspaced : Gapped (a ++ b) (a ++ gaps ++ b) := ⟨a, gaps, b, rfl, rfl, hgaps, hseam⟩
  rw [read_eq, read_eq]
  refine (ofDirectives_alike (directives_spaced hgaps hseam hsign)).map ?_
  rintro format _ rfl
  exact ⟨hspaced.upTo (by decide), rfl⟩

end Format

/-! ## Rolls -/

namespace Roll

/-- The three parts in front of the format are spaced one by one. -/
theorem parts_spaced (h : Gapped s t) :
    Gapped (parts s).1 (parts t).1 ∧ Gapped (parts s).2.1 (parts t).2.1 ∧
      Gapped (parts s).2.2 (parts t).2.2 := by
  have hrest : Gapped (s.onward endsDice) (t.onward endsDice) := h.onward (by decide)
  exact ⟨h.upTo (by decide), hrest.upTo (by decide), hrest.onward (by decide)⟩

/-- Two rolls that do the same and are shown the same way. -/
def SameRoll (roll roll' : Roll) : Prop :=
  roll.dice = roll'.dice ∧ roll.steps = roll'.steps ∧ roll.groups = roll'.groups ∧
    roll.format = roll'.format

/-- The parts read alike, one after another, so the whole does.  The ends of a text count as seams
    here, so gaps around an expression mean nothing either. -/
theorem read_alike {a gaps b : Text} (hgaps : ∀ c ∈ gaps, isGap c = true)
    (hseam : Seam isStructural isStructural a b)
    (hsign : ¬ ((∃ c ∈ a.getLast?, isSign c = true) ∧ ∃ c ∈ a, Directive.isSigil c = true)) :
    Alike SameRoll (read (a ++ b)) (read (a ++ gaps ++ b)) := by
  refine (Format.read_alike hgaps hseam hsign).bind ?_
  rintro ⟨core, format⟩ ⟨core', _⟩ ⟨hcore, rfl⟩
  obtain ⟨hdice, hsteps, hgroups⟩ := parts_spaced hcore
  have hfree : (parts core).1.FreeOf Operator.isSigil :=
    (freeOf_upTo endsDice core).mono fun c hc => by simp only [endsDice, hc, Bool.true_or]
  refine (Dice.read_alike hfree hdice).bind_eq fun dice => ?_
  refine (Step.readAll_alike hsteps).bind_eq fun steps => ?_
  refine (Group.readAll_alike hgroups).bind_eq fun groups => ?_
  exact Alike.ok ⟨rfl, rfl, rfl, rfl⟩

/-- **Gaps around structural characters mean nothing.**  Spaces and tabs that are put in behind a
    structural character or in front of one, but not behind a sign that stands behind a directive,
    change nothing of the roll that is read, or of the rule by which the text is refused. -/
theorem read_gaps (a gaps b : Text) (hgaps : ∀ c ∈ gaps, isGap c = true)
    (hmark : (∃ c ∈ a.getLast?, isStructural c = true) ∨ ∃ c ∈ b.head?, isStructural c = true)
    (hsign : ¬ ((∃ c ∈ a.getLast?, isSign c = true) ∧ ∃ c ∈ a, Directive.isSigil c = true)) :
    (∃ roll roll', read (a ++ b) = .ok roll ∧ read (a ++ gaps ++ b) = .ok roll' ∧
      SameRoll roll roll') ∨
    ∃ fault fault', read (a ++ b) = .error fault ∧ read (a ++ gaps ++ b) = .error fault' ∧
      fault.unquoted = fault'.unquoted := by
  have hseam : Seam isStructural isStructural a b := by
    rcases hmark with ⟨c, hc, hstructural⟩ | ⟨c, hc, hstructural⟩
    · exact Or.inl (endsWith_of_mem hc hstructural)
    · exact Or.inr (opensWith_of_mem hc hstructural)
  exact (read_alike hgaps hseam hsign).exists_cases

/-- Gaps behind the `>`, in front of the sign of its limit. -/
theorem read_gaps_limit :
    ∃ roll roll', read "2d6>-5".toList = .ok roll ∧ read "2d6> \t-5".toList = .ok roll' ∧
      SameRoll roll roll' := by
  have hok : (read "2d6>-5".toList).isOk = true := rfl
  have hgaps : ∀ c ∈ " \t".toList, isGap c = true := List.all_eq_true.mp rfl
  rcases read_gaps "2d6>".toList " \t".toList "-5".toList hgaps (Or.inl ⟨'>', rfl, rfl⟩)
    (by rintro ⟨⟨c, hc, hsign⟩, -⟩; cases hc; cases hsign) with h | ⟨fault, -, hfault, -⟩
  · exact h
  · rw [show read "2d6>-5".toList = .error fault from hfault] at hok
    cases hok

/-- Behind that sign they do mean something. -/
example : (Format.read ">-5".toList).isOk = true ∧ (Format.read ">- 5".toList).isOk = false :=
  ⟨rfl, rfl⟩

end Roll

end DiceNotation
