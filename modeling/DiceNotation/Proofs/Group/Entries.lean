/-
  The entries of a target list, and a comma too many.

  A piece lists its targets in front of its first `:` or, without any, in front of its first operator.
  Cut at every comma that gives the `entries` of the piece, just as they were written.

  1. A piece is `Complete` if each entry is a position.  Two things are tolerated where there is no `:`.
     Blanks behind the last entry do not count, and one comma more may stand in front of an operator.
  2. That comma is dropped before anyone looks for the operator.  So it is dropped at the end of a piece
     without operators, too, where it closes nothing (`CutShort`).
  3. There is no third kind: the targets of a piece are read just if it is complete or cut short
     (`exists_readTargets_iff_of_parts`).  Both directions go through the way in which `Closes` takes the
     comma off (`Closes.entries_iff`): the last entry is blank and goes with the comma in front of it, or
     it stays and only loses its blanks.

  So every empty entry is refused, and the fault is one of the targets, but for the one at the end of a
  piece that is cut short (`readAll_complete`, `readAll_complete_not`).
-/
import DiceNotation.Proofs.Group.Grammar

namespace DiceNotation.Group

open Text Numeral

variable {s entry piece front last targets steps : Text} {first pieces : List Text}

/-! ## Entries -/

/-- An entry that means a position. -/
def IsPosition (entry : Text) : Prop :=
  ∃ t, EntryMeans entry (.ok t)

/-- What stands between the commas in front of the first `:` of a piece or, without any, in front of its
    first operator. -/
def entries (piece : Text) : List Text :=
  Text.split (· == ',')
    (if FreeOf (· == ':') piece then piece.upTo Operator.isSigil else piece.upTo (· == ':'))

theorem isPosition_iff : IsPosition entry ↔ ∃ t, target? entry = some t := by
  unfold IsPosition
  refine exists_congr fun t => ?_
  rw [← readTarget_iff_entryMeans, readTarget]
  cases target? entry with
  | some u =>
    exact ⟨fun h => congrArg some (Except.ok.inj h), fun h => congrArg Except.ok (Option.some.inj h)⟩
  | none => exact ⟨fun h => (nomatch h), fun h => (nomatch h)⟩

instance (entry : Text) : Decidable (IsPosition entry) :=
  decidable_of_iff ((target? entry).isSome = true) (by rw [isPosition_iff, Option.isSome_iff_exists])

/-- A position has digits in it. -/
theorem IsPosition.not_blank (h : IsPosition entry) : entry.isAllBlank = false := by
  obtain ⟨t, h⟩ := h
  cases h with
  | position hsays _ _ =>
    obtain ⟨core, ⟨before, after, rfl, -, -⟩, hdigits, -⟩ := hsays
    obtain ⟨c, rest, rfl⟩ := List.exists_cons_of_ne_nil hdigits.1
    have hc : isBlank c = false := hdigits.freeOf (by decide) c List.mem_cons_self
    apply Bool.eq_false_iff.mpr
    intro hblank
    have hall := List.all_eq_true.mp hblank c (List.mem_append_right _ List.mem_cons_self)
    rw [hc] at hall
    exact Bool.false_ne_true hall

theorem not_isPosition_trimEnd (hblank : entry.isAllBlank = true) : ¬ IsPosition entry.trimEnd := by
  rw [Text.trimEnd, dropEnd_eq_nil_iff.mpr (List.all_eq_true.mp hblank)]
  intro h
  exact Bool.false_ne_true (h.not_blank.symm.trans rfl)

theorem exists_readTargets_iff :
    (∃ ts, readTargets s = .ok ts) ↔ ∀ entry ∈ s.split (· == ','), IsPosition entry := by
  rw [readTargets_eq]
  constructor
  · rintro ⟨ts, h⟩ entry hentry
    obtain ⟨found, hfound, -⟩ := map_eq_ok.mp h
    obtain ⟨t, -, ht⟩ := exists_of_mem_of_mapM hfound hentry
    exact ⟨t, readTarget_iff_entryMeans.mp ht⟩
  · intro h
    obtain ⟨found, hfound⟩ : ∃ found, (s.split (· == ',')).mapM readTarget = .ok found := by
      apply exists_mapM_eq_ok
      intro entry hentry
      obtain ⟨t, ht⟩ := h entry hentry
      exact ⟨t, readTarget_iff_entryMeans.mpr ht⟩
    rw [hfound]
    exact ⟨_, rfl⟩

/-! ## Complete and cut short -/

/-- One comma too many: the last entry is blank, and all in front of it are positions. -/
inductive EndsInComma (piece : Text) : Prop
  | intro {first : List Text} {last : Text} (hcolon : FreeOf (· == ':') piece)
      (hentries : entries piece = first ++ [last]) (hsome : first ≠ [])
      (hfirst : ∀ entry ∈ first, IsPosition entry) (hlast : last.isAllBlank = true) :
      EndsInComma piece

/-- All entries but the last, and the last one. -/
theorem entries_eq_append (piece : Text) :
    ∃ last, entries piece = (entries piece).dropLast ++ [last] ∧ (entries piece).getLast? = some last := by
  have hne : entries piece ≠ [] := (pieces_split _ _).ne_nil
  exact ⟨_, (List.dropLast_concat_getLast hne).symm, List.getLast?_eq_some_getLast hne⟩

theorem endsInComma_iff : EndsInComma piece ↔ FreeOf (· == ':') piece ∧
    (entries piece).dropLast ≠ [] ∧ (∀ entry ∈ (entries piece).dropLast, IsPosition entry) ∧
    (entries piece).getLast?.all Text.isAllBlank = true := by
  constructor
  · rintro ⟨hcolon, hentries, hsome, hfirst, hlast⟩
    rw [hentries, List.dropLast_concat, List.getLast?_concat]
    exact ⟨hcolon, hsome, hfirst, hlast⟩
  · rintro ⟨hcolon, hsome, hfirst, hlast⟩
    obtain ⟨last, hentries, hfound⟩ := entries_eq_append piece
    rw [hfound] at hlast
    exact .intro hcolon hentries hsome hfirst hlast

instance (piece : Text) : Decidable (EndsInComma piece) :=
  decidable_of_iff _ endsInComma_iff.symm

/-- No entry is missing. -/
inductive Complete (piece : Text) : Prop
  | colon (hcolon : ¬ FreeOf (· == ':') piece) (h : ∀ entry ∈ entries piece, IsPosition entry) :
      Complete piece
  | bare {first : List Text} {last : Text} (hcolon : FreeOf (· == ':') piece)
      (hentries : entries piece = first ++ [last]) (hfirst : ∀ entry ∈ first, IsPosition entry)
      (hlast : IsPosition last.trimEnd) : Complete piece
  | closed (h : EndsInComma piece) (hoperator : ¬ piece.FreeOf Operator.isSigil) : Complete piece

/-- A comma is the last that there is, blanks apart. -/
def CutShort (piece : Text) : Prop :=
  EndsInComma piece ∧ piece.FreeOf Operator.isSigil

instance (piece : Text) : Decidable (CutShort piece) :=
  inferInstanceAs (Decidable (EndsInComma piece ∧ piece.FreeOf Operator.isSigil))

/-- A piece with nothing behind its last comma has a last entry that is no position, and so it is not
    complete if there is no operator either. -/
theorem CutShort.not_complete (h : CutShort piece) : ¬ Complete piece := by
  obtain ⟨⟨hcolon, hentries, hsome, hfirst, hlast⟩, hfree⟩ := h
  intro hcomplete
  cases hcomplete with
  | colon hnot _ => exact hnot hcolon
  | closed _ hoperator => exact hoperator hfree
  | bare _ hentries' _ hlast' =>
    obtain ⟨-, heq⟩ := List.append_inj' (hentries.symm.trans hentries') rfl
    obtain rfl := List.singleton_inj.mp heq
    exact not_isPosition_trimEnd hlast hlast'

/-- **A blank entry is missing**, unless it is the last one and not the only one. -/
theorem Complete.endsInComma (h : Complete piece) (hentry : entry ∈ entries piece)
    (hblank : entry.isAllBlank = true) : EndsInComma piece := by
  have hnot : ¬ IsPosition entry := fun hposition =>
    Bool.false_ne_true (hposition.not_blank.symm.trans hblank)
  cases h with
  | colon _ h => exact absurd (h entry hentry) hnot
  | closed h _ => exact h
  | bare _ hentries hfirst hlast =>
    rw [hentries] at hentry
    rcases List.mem_append.mp hentry with hentry | hentry
    · exact absurd (hfirst entry hentry) hnot
    · obtain rfl := List.mem_singleton.mp hentry
      exact absurd hlast (not_isPosition_trimEnd hblank)

/-! ## What is read -/

theorem freeOf_comma_of_isAllBlank (h : s.isAllBlank = true) : FreeOf (· == ',') s := by
  intro c hc
  apply beq_eq_false_iff_ne.mpr
  rintro rfl
  exact absurd (List.all_eq_true.mp h ',' hc) (by decide)

/-- What is left of a target list that is not closed by a comma loses the blanks behind its last
    entry. -/
theorem Closes.plain_entries {blanks : Text} (hblank : blanks.isAllBlank = true)
    (hend : ∀ c ∈ targets.getLast?, isBlank c = false ∧ c ≠ ',')
    (hpieces : Pieces (· == ',') targets (first ++ [last])) :
    (last ++ blanks).trimEnd = last ∧ ((last ++ blanks).isAllBlank = true → first = []) := by
  have hlast : EndsWith (fun c => !isBlank c) last := by
    have hwhole : EndsWith (fun c => !isBlank c) targets := by
      intro c hc
      show (!isBlank c) = true
      rw [(hend c hc).1]
      rfl
    apply hwhole.of_isSuffix
    rcases hpieces.last_cases with ⟨-, rfl⟩ | ⟨front, c, rfl, -, -⟩
    · exact List.suffix_refl _
    · exact (List.suffix_cons c last).trans (List.suffix_append front _)
  have htrim : (last ++ blanks).trimEnd = last := by
    rw [Text.trimEnd, dropEnd_append_of_eq_nil (dropEnd_eq_nil_iff.mpr (List.all_eq_true.mp hblank))]
    exact dropEnd_eq_self_iff.mpr fun c hc => by simpa using hlast c hc
  refine ⟨htrim, fun hall => ?_⟩
  rw [Text.trimEnd, dropEnd_eq_nil_iff.mpr (List.all_eq_true.mp hall)] at htrim
  subst htrim
  rcases hpieces.last_cases with ⟨hnone, -⟩ | ⟨front, c, rfl, hc, -⟩
  · exact hnone
  · -- an empty entry at the end of a longer list stands behind a comma
    exact absurd (beq_iff_eq.mp hc) (hend c (by rw [List.getLast?_concat]; rfl)).2

/-- **Which target lists are read, told from the entries in front of the operator.** -/
theorem Closes.entries_iff (h : Closes front targets) :
    (∀ entry ∈ targets.split (· == ','), IsPosition entry) ↔
      ∃ first last, front.split (· == ',') = first ++ [last] ∧
        (∀ entry ∈ first, IsPosition entry) ∧
        (IsPosition last.trimEnd ∨ first ≠ [] ∧ last.isAllBlank = true) := by
  have hpieces := pieces_split (· == ',') targets
  cases h with
  | @comma blanks hfront hblank =>
    -- the blanks behind the comma are an entry of their own
    have hcut : front.split (· == ',') = targets.split (· == ',') ++ [blanks] := by
      rw [hfront]
      exact (hpieces.concat rfl (freeOf_comma_of_isAllBlank hblank)).split_eq
    rw [hcut]
    constructor
    · intro h
      exact ⟨_, _, rfl, h, Or.inr ⟨hpieces.ne_nil, hblank⟩⟩
    · rintro ⟨first, last, heq, hfirst, -⟩
      rwa [(List.append_inj' heq rfl).1]
  | @plain blanks hfront hblank hend =>
    -- the blanks belong to the last entry
    obtain ⟨others, final, hothers⟩ := List.eq_nil_or_concat _ |>.resolve_left hpieces.ne_nil
    rw [List.concat_eq_append] at hothers
    rw [hothers] at hpieces ⊢
    have hcut : front.split (· == ',') = others ++ [final ++ blanks] := by
      rw [hfront]
      exact (hpieces.extend (freeOf_comma_of_isAllBlank hblank)).split_eq
    obtain ⟨htrim, hblanks⟩ := Closes.plain_entries hblank hend hpieces
    rw [hcut]
    constructor
    · intro h
      refine ⟨_, _, rfl, fun entry hentry => h entry (List.mem_append_left _ hentry), Or.inl ?_⟩
      rw [htrim]
      exact h final (List.mem_append_right _ List.mem_cons_self)
    · rintro ⟨first, last, heq, hfirst, hlast⟩
      obtain ⟨rfl, hsame⟩ := List.append_inj' heq rfl
      obtain rfl := List.singleton_inj.mp hsame
      intro entry hentry
      rcases List.mem_append.mp hentry with hentry | hentry
      · exact hfirst entry hentry
      · obtain rfl := List.mem_singleton.mp hentry
        rcases hlast with hlast | ⟨hsome, hall⟩
        · rwa [htrim] at hlast
        · exact absurd (hblanks hall) hsome

theorem not_freeOf_colon (targets steps : Text) : ¬ FreeOf (· == ':') (targets ++ ':' :: steps) := by
  intro h
  exact absurd (h ':' (List.mem_append_right _ List.mem_cons_self)) (by decide)

theorem entries_of_colon (hfree : FreeOf (· == ':') targets) :
    entries (targets ++ ':' :: steps) = targets.split (· == ',') := by
  rw [entries, if_neg (not_freeOf_colon targets steps), upTo_append_cons hfree rfl]

theorem entries_of_bare (hcolon : FreeOf (· == ':') (front ++ steps))
    (hfree : front.FreeOf Operator.isSigil) (hopen : steps.OpensWith Operator.isSigil) :
    entries (front ++ steps) = front.split (· == ',') := by
  rw [entries, if_pos hcolon, upTo_append hfree, upTo_of_opensWith hopen, List.append_nil]

/-- **The targets of a piece are read just if it is complete or cut short.** -/
theorem exists_readTargets_iff_of_parts (h : Parts piece targets steps) :
    (∃ ts, readTargets targets = .ok ts) ↔ Complete piece ∨ CutShort piece := by
  rw [exists_readTargets_iff]
  cases h with
  | colon hfree =>
    have hcolon := not_freeOf_colon targets steps
    have hentries : entries (targets ++ ':' :: steps) = targets.split (· == ',') :=
      entries_of_colon hfree
    constructor
    · intro h
      exact Or.inl (.colon hcolon (hentries ▸ h))
    · rintro ((⟨-, h⟩ | ⟨hnot, -⟩ | ⟨⟨hnot, -⟩, -⟩) | ⟨⟨hnot, -⟩, -⟩)
      · rwa [hentries] at h
      all_goals exact absurd hnot hcolon
  | @bare front _ _ hcolon hfree hopen hcloses =>
    have hentries := entries_of_bare hcolon hfree hopen
    rw [hcloses.entries_iff, ← hentries]
    constructor
    · rintro ⟨first, last, hcut, hfirst, hlast | ⟨hsome, hblank⟩⟩
      · exact Or.inl (.bare hcolon hcut hfirst hlast)
      · have hcomma : EndsInComma (front ++ steps) := .intro hcolon hcut hsome hfirst hblank
        by_cases hoperator : FreeOf Operator.isSigil (front ++ steps)
        · exact Or.inr ⟨hcomma, hoperator⟩
        · exact Or.inl (.closed hcomma hoperator)
    · rintro ((⟨hnot, -⟩ | ⟨-, hcut, hfirst, hlast⟩ | ⟨⟨-, hcut, hsome, hfirst, hblank⟩, -⟩) |
        ⟨⟨-, hcut, hsome, hfirst, hblank⟩, -⟩)
      · exact absurd hcolon hnot
      · exact ⟨_, _, hcut, hfirst, Or.inl hlast⟩
      · exact ⟨_, _, hcut, hfirst, Or.inr ⟨hsome, hblank⟩⟩
      · exact ⟨_, _, hcut, hfirst, Or.inr ⟨hsome, hblank⟩⟩

theorem complete_of_read {group : Group} (h : read piece = .ok group) :
    Complete piece ∨ CutShort piece := by
  rcases hcut : parts piece with ⟨targets, steps⟩
  rw [read_of_parts hcut] at h
  obtain ⟨ts, htargets, -⟩ := bind_eq_ok.mp h
  exact (exists_readTargets_iff_of_parts (parts_iff.mp hcut)).mp ⟨ts, htargets⟩

/-- **All other pieces are refused for their targets**, whatever their steps are. -/
theorem bad_of_not_complete (hcomplete : ¬ Complete piece) (hshort : ¬ CutShort piece) :
    ∃ t, read piece = .error (.badTarget t) := by
  rcases hcut : parts piece with ⟨targets, steps⟩
  cases htargets : readTargets targets with
  | ok ts =>
    have hpiece := (exists_readTargets_iff_of_parts (parts_iff.mp hcut)).mp ⟨ts, htargets⟩
    exact absurd hpiece fun h => h.elim hcomplete hshort
  | error fault =>
    obtain ⟨entry, -, -, -, rfl⟩ := exists_entry_of_readTargets htargets
    rw [read_of_parts hcut, htargets]
    exact ⟨entry.trim, rfl⟩

/-- **A piece that is cut short is read**, as a group that does nothing. -/
theorem read_of_cutShort (h : CutShort piece) : ∃ ts, read piece = .ok ⟨ts, []⟩ := by
  rcases hcut : parts piece with ⟨targets, steps⟩
  obtain ⟨ts, htargets⟩ := (exists_readTargets_iff_of_parts (parts_iff.mp hcut)).mpr (Or.inr h)
  obtain ⟨⟨hcolon, -⟩, hfree⟩ := h
  obtain rfl : [] = steps := by
    rw [parts_of_freeOf hcolon, onward_of_freeOf hfree] at hcut
    exact (Prod.mk.inj hcut).2
  rw [read_of_parts hcut, htargets]
  exact ⟨ts, rfl⟩

/-! ## Whole texts -/

/-- The first piece that is at fault decides, and blank pieces are none. -/
theorem readAll_of_bad {before after : List Text} {fault : Fault}
    (hcut : Pieces isGroupDelimiter s (before ++ piece :: after)) (hsome : piece.isAllBlank = false)
    (hbefore : ∀ other ∈ before, other.isAllBlank = false → ∃ group, read other = .ok group)
    (h : read piece = .error fault) : readAll s = .error fault := by
  obtain ⟨groups, hgroups⟩ : ∃ groups,
      (before.filter fun piece => !piece.isAllBlank).mapM read = .ok groups := by
    apply exists_mapM_eq_ok
    intro other hother
    obtain ⟨hmem, hkept⟩ := List.mem_filter.mp hother
    exact hbefore other hmem (by simpa using hkept)
  unfold readAll
  rw [hcut.split_eq, List.filter_append, List.filter_cons_of_pos (by rw [hsome]; rfl),
    List.mapM_append, hgroups, List.mapM_cons, h]
  rfl

/-- What is read has complete pieces only, or some that are cut short. -/
theorem complete_of_readAll {groups : List Group} (hcut : Pieces isGroupDelimiter s pieces)
    (h : readAll s = .ok groups) :
    ∀ piece ∈ pieces, piece.isAllBlank = false → Complete piece ∨ CutShort piece := by
  intro piece hpiece hsome
  unfold readAll at h
  rw [hcut.split_eq] at h
  obtain ⟨group, -, hgroup⟩ :=
    exists_of_mem_of_mapM h (List.mem_filter.mpr ⟨hpiece, by rw [hsome]; rfl⟩)
  exact complete_of_read hgroup

/-- **Which target lists are accepted, and what becomes of an empty entry**, in a text with such pieces.

    1. If the text is read, all its pieces are complete or cut short, blank ones apart.
    2. A piece that is neither makes the text refused; and if what stands in front of it can be read, it
       is refused for a target.
    3. So it is with a piece that has an empty entry, but for one behind a comma at the end.
    4. A piece that is cut short is not complete, and yet it is read. -/
theorem readAll_complete (hcut : Pieces isGroupDelimiter s pieces) :
    (∀ groups, readAll s = .ok groups →
      ∀ piece ∈ pieces, piece.isAllBlank = false → Complete piece ∨ CutShort piece) ∧
    (∀ before piece after, pieces = before ++ piece :: after → piece.isAllBlank = false →
      ¬ Complete piece → ¬ CutShort piece →
      (∃ fault, readAll s = .error fault) ∧
      ((∀ other ∈ before, other.isAllBlank = false → ∃ group, read other = .ok group) →
        ∃ t, readAll s = .error (.badTarget t))) ∧
    (∀ piece ∈ pieces, ∀ entry ∈ entries piece, entry.isAllBlank = true → ¬ EndsInComma piece →
      ¬ Complete piece ∧ ¬ CutShort piece) ∧
    ∀ piece ∈ pieces, CutShort piece → ¬ Complete piece ∧ ∃ ts, read piece = .ok ⟨ts, []⟩ := by
  refine ⟨fun _ => complete_of_readAll hcut, ?_, ?_, ?_⟩
  · rintro before piece after rfl hsome hcomplete hshort
    constructor
    · cases h : readAll s with
      | error fault => exact ⟨fault, rfl⟩
      | ok groups =>
        have hpiece := complete_of_readAll hcut h piece
          (List.mem_append_right _ List.mem_cons_self) hsome
        exact absurd hpiece fun h => h.elim hcomplete hshort
    · intro hbefore
      obtain ⟨t, ht⟩ := bad_of_not_complete hcomplete hshort
      exact ⟨t, readAll_of_bad hcut hsome hbefore ht⟩
  · intro piece _ entry hentry hblank hcomma
    exact ⟨fun h => hcomma (h.endsInComma hentry hblank), fun h => hcomma h.1⟩
  · intro piece _ hshort
    exact ⟨hshort.not_complete, read_of_cutShort hshort⟩

/-- A comma that closes a target list in front of an operator, with blanks around it; an empty entry
    between two others, behind a group that can be read; and a comma behind which nothing comes. -/
theorem readAll_complete_closed :
    (readAll "1, 2 ,\u2003-5;".toList = .ok [⟨[1, 2], [⟨.subtract, 5⟩]⟩] ∧
      (Complete "1, 2 ,\u2003-5".toList ∨ CutShort "1, 2 ,\u2003-5".toList)) ∧
    ([] ∈ entries "1,,3*2".toList ∧ ¬ Complete "1,,3*2".toList ∧ ¬ CutShort "1,,3*2".toList ∧
      ∃ t, readAll "2:+1;1,,3*2;x".toList = .error (.badTarget t)) ∧
    (CutShort "7 , ".toList ∧ ¬ Complete "7 , ".toList ∧
      ∃ ts, read "7 , ".toList = .ok ⟨ts, []⟩) := by
  -- a comma in front of an operator
  have hclosed : Pieces isGroupDelimiter "1, 2 ,\u2003-5;".toList ["1, 2 ,\u2003-5".toList, []] :=
    pieces_iff.mpr (by decide +kernel)
  have hgroups : readAll "1, 2 ,\u2003-5;".toList = .ok [⟨[1, 2], [⟨.subtract, 5⟩]⟩] := by
    decide +kernel
  have haccepted := (readAll_complete hclosed).1 _ hgroups _ List.mem_cons_self (by decide +kernel)
  -- an empty entry between two others
  have hbetween : Pieces isGroupDelimiter "2:+1;1,,3*2;x".toList
      (["2:+1".toList] ++ "1,,3*2".toList :: ["x".toList]) :=
    pieces_iff.mpr (by decide +kernel)
  obtain ⟨-, hbad, hempty, -⟩ := readAll_complete hbetween
  have hentry : [] ∈ entries "1,,3*2".toList := by decide +kernel
  obtain ⟨hcomplete, hnot⟩ := hempty _ (List.mem_append_right _ List.mem_cons_self) _ hentry rfl
    (by decide +kernel)
  have hbefore : ∀ other ∈ ["2:+1".toList], isAllBlank other = false →
      ∃ group, read other = .ok group := by
    intro other hother _
    obtain rfl := List.mem_singleton.mp hother
    exact ⟨⟨[2], [⟨.add, 1⟩]⟩, by decide +kernel⟩
  have hrefused := (hbad _ _ _ rfl (by decide +kernel) hcomplete hnot).2 hbefore
  -- a comma at the end
  have hlast : Pieces isGroupDelimiter "7 , ".toList ["7 , ".toList] :=
    pieces_iff.mpr (by decide +kernel)
  have hcut : CutShort "7 , ".toList := by decide +kernel
  have hread := (readAll_complete hlast).2.2.2 _ List.mem_cons_self hcut
  exact ⟨⟨hgroups, haccepted⟩, ⟨hentry, hcomplete, hnot, hrefused⟩, hcut, hread⟩

/-- **An empty entry can be swallowed.**  No operator follows the last comma, and nothing else does; the
    entry behind it is no position, and the group is read without it. -/
theorem readAll_complete_not :
    readAll "i1,2,".toList = .ok [⟨[1, 2], []⟩] ∧
    Pieces isGroupDelimiter "i1,2,".toList [[], "1,2,".toList] ∧
    isAllBlank "1,2,".toList = false ∧ FreeOf (· == ':') "1,2,".toList ∧
    FreeOf Operator.isSigil "1,2,".toList ∧
    entries "1,2,".toList = ["1".toList, "2".toList, []] ∧ ¬ IsPosition [] ∧
    ¬ Complete "1,2,".toList := by
  have hshort : CutShort "1,2,".toList := by decide +kernel
  exact ⟨by decide +kernel, pieces_iff.mpr (by decide +kernel), by decide +kernel, by decide +kernel,
    by decide +kernel, by decide +kernel, by decide +kernel, hshort.not_complete⟩

end DiceNotation.Group
