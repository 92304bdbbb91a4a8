/-
  The targeted groups as a grammar.

  What a text MEANS as groups (`Group.AllMean`), from the entry of a target list up:

  1. An entry is digits with gaps around them whose number is a position, from one to below 2^64; any
     other entry is at fault (`EntryMeans`).
  2. A target list is cut at every comma.  If all its entries are positions, it means the set of them,
     that is, the ascending list with the same members; otherwise its first bad entry is at fault
     (`TargetsMean`).
  3. A piece is cut into targets and steps at its first `:`, or, without any, at its first operator;
     then blanks at the end of the targets go, and one comma in front of them (`Parts`).
  4. A group has the targets of the one part and the steps of the other.  If both are at fault, it is
     the targets that count (`Group.Means`).
  5. The text is cut at every `;` and every `i`, and its pieces that are not blank mean groups, in
     order; the first fault is that of the text (`AllMean`).

  The reader gives what the text means (`readAll_iff_mean`).  Of the entries of a target list it matters
  only which there are, not in which order or how often, and that comes from the word "set" in 2.  A
  fault can be followed back to its entry or to its steps (`exists_parts_of_readAll`,
  `exists_entry_of_readTargets`).
-/
import DiceNotation.Proofs.Numeral.Spelling
import DiceNotation.Proofs.Roll.WellFormed
import DiceNotation.Proofs.Step.Grammar
import Mathlib.Data.List.Sort

namespace DiceNotation.Group

open Text Numeral

variable {s t entry piece front targets steps : Text} {pieces : List Text} {ts : List Nat}

/-! ## Targets -/

/-- What an entry of a target list means. -/
inductive EntryMeans (entry : Text) : Except Fault Nat → Prop
  | position {t : Nat} (h : SaysNumber entry t) (hpos : 1 ≤ t) (hlt : t < 2 ^ 64) :
      EntryMeans entry (.ok t)
  | malformed (h : ∀ t, SaysNumber entry t → ¬ (1 ≤ t ∧ t < 2 ^ 64)) :
      EntryMeans entry (.error (.badTarget entry.trim))

/-- What a list of entries with commas between them means. -/
inductive TargetsMean (s : Text) : Except Fault (List Nat) → Prop
  | set {entries : List Text} {found targets : List Nat} (hcut : Pieces (· == ',') s entries)
      (hread : InOrder EntryMeans entries (.ok found)) (hasc : targets.Pairwise (· < ·))
      (hmem : ∀ t, t ∈ targets ↔ t ∈ found) : TargetsMean s (.ok targets)
  | malformed {entries : List Text} {fault : Fault} (hcut : Pieces (· == ',') s entries)
      (hread : InOrder EntryMeans entries (.error fault)) : TargetsMean s (.error fault)

/-- Reads one entry. -/
def readTarget (entry : Text) : Except Fault Nat :=
  match target? entry with
  | some t => .ok t
  | none => .error (.badTarget entry.trim)

theorem target?_eq_some_iff {t : Nat} :
    target? entry = some t ↔ SaysNumber entry t ∧ 1 ≤ t ∧ t < 2 ^ 64 := by
  rw [target?, Option.filter_eq_some_iff, digits?_trimGap_iff, Bool.and_eq_true, decide_eq_true_iff,
    decide_eq_true_iff]
  exact Iff.rfl

theorem target?_eq_none_iff :
    target? entry = none ↔ ∀ n, SaysNumber entry n → ¬ (1 ≤ n ∧ n < 2 ^ 64) := by
  rw [Option.eq_none_iff_forall_ne_some]
  exact forall_congr' fun n => by rw [Ne, target?_eq_some_iff, not_and]

theorem readTarget_iff_entryMeans {result : Except Fault Nat} :
    readTarget entry = result ↔ EntryMeans entry result := by
  unfold readTarget
  constructor
  · rintro rfl
    cases hread : target? entry with
    | some t =>
      obtain ⟨hsaid, hpos, hlt⟩ := target?_eq_some_iff.mp hread
      exact .position hsaid hpos hlt
    | none =>
      refine .malformed fun t hsaid hrange => ?_
      rw [target?_eq_some_iff.mpr ⟨hsaid, hrange⟩] at hread
      cases hread
  · intro h
    cases h with
    | position hsaid hpos hlt => rw [target?_eq_some_iff.mpr ⟨hsaid, hpos, hlt⟩]
    | malformed h =>
      cases hread : target? entry with
      | some t =>
        obtain ⟨hsaid, hrange⟩ := target?_eq_some_iff.mp hread
        exact absurd hrange (h t hsaid)
      | none => rfl

theorem readTargets_eq (s : Text) :
    readTargets s = ((s.split (· == ',')).mapM readTarget).map targetSet := rfl

/-- **There is one ascending list with the members of another.** -/
theorem targetSet_eq_iff {found : List Nat} :
    targetSet found = ts ↔ ts.Pairwise (· < ·) ∧ ∀ t, t ∈ ts ↔ t ∈ found := by
  constructor
  · rintro rfl
    exact ⟨targetSet_ascending found, fun t => mem_targetSet⟩
  · rintro ⟨hasc, hmem⟩
    refine List.Pairwise.eq_of_mem_iff (targetSet_ascending found) hasc fun t => ?_
    rw [mem_targetSet, hmem]

theorem inOrder_entryMeans_iff {entries : List Text} {found : Except Fault (List Nat)} :
    InOrder EntryMeans entries found ↔ entries.mapM readTarget = found := by
  apply inOrder_iff
  intro entry _ result
  exact readTarget_iff_entryMeans.symm

/-- **A target list is read as what it means.** -/
theorem readTargets_iff_targetsMean {result : Except Fault (List Nat)} :
    readTargets s = result ↔ TargetsMean s result := by
  rw [readTargets_eq]
  constructor
  · rintro rfl
    cases hread : (s.split (· == ',')).mapM readTarget with
    | ok found =>
      obtain ⟨hasc, hmem⟩ := targetSet_eq_iff.mp (rfl : targetSet found = targetSet found)
      exact .set (pieces_split _ s) (inOrder_entryMeans_iff.mpr hread) hasc hmem
    | error fault => exact .malformed (pieces_split _ s) (inOrder_entryMeans_iff.mpr hread)
  · intro h
    cases h with
    | set hcut hread hasc hmem =>
      rw [hcut.split_eq, inOrder_entryMeans_iff.mp hread]
      exact congrArg Except.ok (targetSet_eq_iff.mpr ⟨hasc, hmem⟩)
    | malformed hcut hread =>
      rw [hcut.split_eq, inOrder_entryMeans_iff.mp hread]
      rfl

/-! ## Targets and steps apart -/

/-- What is left of a target list that ends in front of an operator: without the blanks at its end,
    and then without the comma at its end, if there is one. -/
inductive Closes (front : Text) : Text → Prop
  | comma {targets blanks : Text} (hfront : front = targets ++ ',' :: blanks)
      (hblank : blanks.isAllBlank = true) : Closes front targets
  | plain {targets blanks : Text} (hfront : front = targets ++ blanks)
      (hblank : blanks.isAllBlank = true) (hend : ∀ c ∈ targets.getLast?, isBlank c = false ∧ c ≠ ',') :
      Closes front targets

/-- How a piece is cut into its targets and its steps. -/
inductive Parts : Text → Text → Text → Prop
  | colon {targets steps : Text} (hfree : FreeOf (· == ':') targets) :
      Parts (targets ++ ':' :: steps) targets steps
  | bare {front targets steps : Text} (hcolon : FreeOf (· == ':') (front ++ steps))
      (hfree : front.FreeOf Operator.isSigil) (hopen : steps.OpensWith Operator.isSigil)
      (hcloses : Closes front targets) : Parts (front ++ steps) targets steps

theorem dropClosingComma_comma (s : Text) : dropClosingComma (s ++ [',']) = s := by
  unfold dropClosingComma
  rw [List.getLast?_concat, if_pos rfl, List.dropLast_concat]

theorem closes_iff : dropClosingComma (Text.trimEnd front) = targets ↔ Closes front targets := by
  constructor
  · rintro rfl
    obtain ⟨blanks, hfront, hblank⟩ := exists_dropEnd isBlank front
    have hblanks : blanks.isAllBlank = true := List.all_eq_true.mpr hblank
    by_cases hcomma : (Text.trimEnd front).getLast? = some ','
    · obtain ⟨list, hlist⟩ := List.getLast?_eq_some_iff.mp hcomma
      rw [hlist, dropClosingComma_comma]
      refine .comma (hfront.trans ?_) hblanks
      rw [show dropEnd isBlank front = list ++ [','] from hlist, List.append_assoc]
      rfl
    · rw [dropClosingComma, if_neg hcomma]
      refine .plain hfront hblanks fun c hc => ⟨getLast?_dropEnd isBlank front c hc, ?_⟩
      rintro rfl
      exact hcomma hc
  · intro h
    cases h with
    | @comma blanks hfront hblank =>
      have hnone : dropEnd isBlank blanks = [] := dropEnd_eq_nil_iff.mpr (List.all_eq_true.mp hblank)
      rw [hfront, trimEnd, dropEnd_append_cons (by decide), hnone, dropClosingComma_comma]
    | @plain blanks hfront hblank hend =>
      have hnone : dropEnd isBlank blanks = [] := dropEnd_eq_nil_iff.mpr (List.all_eq_true.mp hblank)
      have hstays : dropEnd isBlank targets = targets :=
        dropEnd_eq_self_iff.mpr fun c hc => (hend c hc).1
      rw [hfront, trimEnd, dropEnd_append_of_eq_nil hnone, hstays, dropClosingComma]
      exact if_neg fun hcomma => (hend ',' hcomma).2 rfl

theorem parts_append_colon (hfree : FreeOf (· == ':') targets) :
    parts (targets ++ ':' :: steps) = (targets, steps) := by
  have hupTo : upTo (· == ':') (targets ++ ':' :: steps) = targets := upTo_append_cons hfree rfl
  have honward : onward (· == ':') (targets ++ ':' :: steps) = ':' :: steps :=
    onward_append_cons hfree rfl
  unfold parts
  rw [honward, hupTo]

theorem parts_of_freeOf (hfree : FreeOf (· == ':') piece) :
    parts piece = (dropClosingComma (Text.trimEnd (piece.upTo Operator.isSigil)),
      piece.onward Operator.isSigil) := by
  unfold parts
  rw [onward_of_freeOf hfree]

/-- **A piece is cut in one way.** -/
theorem parts_iff : parts piece = (targets, steps) ↔ Parts piece targets steps := by
  constructor
  · intro h
    by_cases hcolon : FreeOf (· == ':') piece
    · rw [parts_of_freeOf hcolon] at h
      obtain ⟨htargets, rfl⟩ := Prod.mk.inj h
      have hwhole := upTo_append_onward Operator.isSigil piece
      have hbare : Parts (piece.upTo Operator.isSigil ++ piece.onward Operator.isSigil) targets
          (piece.onward Operator.isSigil) :=
        .bare (by rwa [hwhole]) (freeOf_upTo _ _) (opensWith_onward _ _) (closes_iff.mp htargets)
      rwa [hwhole] at hbare
    · obtain ⟨front, c, rest, rfl, hfront, hc⟩ := exists_of_not_freeOf hcolon
      obtain rfl : c = ':' := beq_iff_eq.mp hc
      rw [parts_append_colon hfront] at h
      obtain ⟨rfl, rfl⟩ := Prod.mk.inj h
      exact .colon hfront
  · intro h
    cases h with
    | colon hfree => exact parts_append_colon hfree
    | bare hcolon hfree hopen hcloses =>
      rw [parts_of_freeOf hcolon, upTo_append hfree, upTo_of_opensWith hopen, List.append_nil,
        onward_append hfree, onward_of_opensWith hopen, closes_iff.mpr hcloses]

/-! ## Groups -/

/-- What a piece means as a group. -/
inductive Means (piece : Text) : Except Fault Group → Prop
  | badTargets {targets steps : Text} {fault : Fault} (hparts : Parts piece targets steps)
      (htargets : TargetsMean targets (.error fault)) : Means piece (.error fault)
  | badSteps {targets steps : Text} {ts : List Nat} {fault : Fault}
      (hparts : Parts piece targets steps) (htargets : TargetsMean targets (.ok ts))
      (hsteps : Step.Means .refused .add steps (.error fault)) : Means piece (.error fault)
  | group {targets steps : Text} {group : Group} (hparts : Parts piece targets steps)
      (htargets : TargetsMean targets (.ok group.targets))
      (hsteps : Step.Means .refused .add steps (.ok group.steps)) : Means piece (.ok group)

/-- What a text means as groups. -/
inductive AllMean (s : Text) : Except Fault (List Group) → Prop
  | inOrder {pieces : List Text} {result : Except Fault (List Group)}
      (hcut : Pieces isGroupDelimiter s pieces)
      (hread : InOrder Means (pieces.filter fun piece => !piece.isAllBlank) result) :
      AllMean s result

theorem Parts.steps_freeOf {p : Char → Bool} (h : Parts piece targets steps)
    (hfree : FreeOf p piece) : FreeOf p steps := by
  cases h with
  | colon _ => exact (freeOf_cons.mp (freeOf_append.mp hfree).2).2
  | bare _ _ _ _ => exact (freeOf_append.mp hfree).2

theorem read_of_parts (h : parts piece = (targets, steps)) :
    read piece = readTargets targets >>= fun ts => Step.scan .refused .add steps >>= fun found =>
      .ok ⟨ts, found⟩ := by
  unfold read
  rw [h]
  rfl

/-- **A piece is read as what it means**, if no `i` has been left in it. -/
theorem read_iff_of_freeOf {result : Except Fault Group} (hfree : piece.FreeOf (· == targetSigil)) :
    read piece = result ↔ Means piece result := by
  constructor
  · rintro rfl
    rcases hcut : parts piece with ⟨targets, steps⟩
    have hparts := parts_iff.mp hcut
    rw [read_of_parts hcut]
    cases htargets : readTargets targets with
    | error fault => exact .badTargets hparts (readTargets_iff_targetsMean.mp htargets)
    | ok ts =>
      cases hsteps : Step.scan .refused .add steps with
      | error fault =>
        exact .badSteps hparts (readTargets_iff_targetsMean.mp htargets)
          ((Step.scan_iff_means_of_freeOf (hparts.steps_freeOf hfree)).mp hsteps)
      | ok found =>
        exact .group hparts (readTargets_iff_targetsMean.mp htargets)
          ((Step.scan_iff_means_of_freeOf (hparts.steps_freeOf hfree)).mp hsteps)
  · intro h
    cases h with
    | badTargets hparts htargets =>
      rw [read_of_parts (parts_iff.mpr hparts), readTargets_iff_targetsMean.mpr htargets]
      rfl
    | badSteps hparts htargets hsteps =>
      rw [read_of_parts (parts_iff.mpr hparts), readTargets_iff_targetsMean.mpr htargets,
        (Step.scan_iff_means_of_freeOf (hparts.steps_freeOf hfree)).mpr hsteps]
      rfl
    | group hparts htargets hsteps =>
      rw [read_of_parts (parts_iff.mpr hparts), readTargets_iff_targetsMean.mpr htargets,
        (Step.scan_iff_means_of_freeOf (hparts.steps_freeOf hfree)).mpr hsteps]
      rfl

/-- No `i` is left in a piece. -/
theorem freeOf_targetSigil_of_mem (hcut : Pieces isGroupDelimiter s pieces) :
    ∀ piece ∈ pieces.filter fun piece => !piece.isAllBlank, piece.FreeOf (· == targetSigil) := by
  intro piece hpiece
  have hfree := hcut.free piece (List.mem_filter.mp hpiece).1
  exact hfree.mono fun c hc => Bool.or_eq_true_iff.mpr (Or.inr hc)

theorem readAll_iff_allMean {result : Except Fault (List Group)} :
    readAll s = result ↔ AllMean s result := by
  have hread : ∀ {pieces : List Text}, Pieces isGroupDelimiter s pieces →
      (InOrder Means (pieces.filter fun piece => !piece.isAllBlank) result ↔
        (pieces.filter fun piece => !piece.isAllBlank).mapM read = result) := by
    intro pieces hcut
    apply inOrder_iff
    intro piece hpiece found
    exact (read_iff_of_freeOf (freeOf_targetSigil_of_mem hcut piece hpiece)).symm
  unfold readAll
  constructor
  · intro h
    exact .inOrder (pieces_split _ s) ((hread (pieces_split _ s)).mpr h)
  · intro h
    cases h with
    | inOrder hcut hfound => rw [hcut.split_eq, (hread hcut).mp hfound]

/-! ## Where a fault comes from -/

/-- The targets and the steps of a piece are parts of it. -/
theorem Parts.isInfix (h : Parts piece targets steps) : targets <:+: piece ∧ steps <:+: piece := by
  cases h with
  | colon _ =>
    exact ⟨(List.prefix_append _ _).isInfix,
      ((List.suffix_cons ':' steps).trans (List.suffix_append _ _)).isInfix⟩
  | @bare front _ _ _ _ _ hcloses =>
    have htargets : targets <+: front := by
      cases hcloses with
      | comma hfront _ => exact hfront ▸ List.prefix_append _ _
      | plain hfront _ _ => exact hfront ▸ List.prefix_append _ _
    exact ⟨(htargets.trans (List.prefix_append _ _)).isInfix, (List.suffix_append _ _).isInfix⟩

theorem Parts.targets_freeOf (h : Parts piece targets steps) : FreeOf (· == ':') targets := by
  cases h with
  | colon hfree => exact hfree
  | @bare front _ _ hcolon _ _ hcloses =>
    have hfront := (freeOf_append.mp hcolon).1
    cases hcloses with
    | comma heq _ => exact (freeOf_append.mp (heq ▸ hfront)).1
    | plain heq _ _ => exact (freeOf_append.mp (heq ▸ hfront)).1

/-- A fault of the groups is one of the targets or of the steps of a piece. -/
theorem exists_parts_of_readAll {fault : Fault} (h : readAll s = .error fault) :
    ∃ piece targets steps : Text, piece <:+: s ∧ piece.FreeOf isGroupDelimiter ∧
      Parts piece targets steps ∧
      (readTargets targets = .error fault ∨ Step.scan .refused .add steps = .error fault) := by
  obtain ⟨piece, hpiece, hread⟩ := exists_of_mapM_eq_error h
  have hmem := (List.mem_filter.mp hpiece).1
  have hparts := parts_iff.mp (rfl : parts piece = (_, _))
  refine ⟨piece, _, _, (pieces_split _ s).isInfix piece hmem, (pieces_split _ s).free piece hmem,
    hparts, ?_⟩
  rw [read_of_parts rfl] at hread
  rcases bind_eq_error.mp hread with hfault | ⟨ts, -, hread⟩
  · exact Or.inl hfault
  · rcases bind_eq_error.mp hread with hfault | ⟨found, -, hread⟩
    · exact Or.inr hfault
    · cases hread

/-- The fault of a target list is an entry between commas that is no position. -/
theorem exists_entry_of_readTargets {fault : Fault} (h : readTargets targets = .error fault) :
    ∃ entry : Text, entry <:+: targets ∧ FreeOf (· == ',') entry ∧ target? entry = none ∧
      fault = .badTarget entry.trim := by
  rw [readTargets_eq] at h
  cases hentries : (targets.split (· == ',')).mapM readTarget with
  | ok found => rw [hentries] at h; cases h
  | error other =>
    rw [hentries] at h
    obtain rfl : other = fault := Except.error.inj h
    obtain ⟨entry, hmem, hread⟩ := exists_of_mapM_eq_error hentries
    refine ⟨entry, (pieces_split _ _).isInfix entry hmem, (pieces_split _ _).free entry hmem, ?_⟩
    unfold readTarget at hread
    cases htarget : target? entry with
    | some t => rw [htarget] at hread; cases hread
    | none =>
      rw [htarget] at hread
      exact ⟨rfl, (Except.error.inj hread).symm⟩

/-! ## Which entries there are -/

/-- Two target lists with the same entries mean the same set. -/
theorem TargetsMean.of_mem_iff {entries others : List Text} (h : TargetsMean s (.ok ts))
    (hs : Pieces (· == ',') s entries) (ht : Pieces (· == ',') t others)
    (hmem : ∀ entry, entry ∈ others ↔ entry ∈ entries) : TargetsMean t (.ok ts) := by
  cases h with
  | set hcut hread hasc hts =>
    obtain rfl := hs.split_eq.symm.trans hcut.split_eq
    obtain ⟨found, hfound, hsame⟩ := exists_mapM_of_mem_iff (inOrder_entryMeans_iff.mp hread) hmem
    refine .set ht (inOrder_entryMeans_iff.mpr hfound) hasc fun t => ?_
    rw [hts, hsame]

/-- **The targeted groups are read as their grammar says.**

    1. For every text the reader gives what the text means, and nothing else is meant by it.
    2. A target list that means a set means the same set after its entries have been repeated or put
       into another order. -/
theorem readAll_iff_mean :
    (∀ (s : Text) (result : Except Fault (List Group)), readAll s = result ↔ AllMean s result) ∧
    ∀ (s t : Text) (entries others : List Text) (targets : List Nat),
      Pieces (· == ',') s entries → Pieces (· == ',') t others →
      (∀ entry, entry ∈ others ↔ entry ∈ entries) →
      TargetsMean s (.ok targets) → TargetsMean t (.ok targets) := by
  refine ⟨fun s result => readAll_iff_allMean, ?_⟩
  intro s t entries others targets hs ht hmem h
  exact h.of_mem_iff hs ht hmem

/-- Three groups with blank pieces between them, and two pieces of which the first is at fault twice;
    and an entry that has been said twice. -/
theorem readAll_iff_mean_repeated :
    AllMean "i1,03 ,1:*2; 2, +5i ;7".toList
      (.ok [⟨[1, 3], [⟨.multiply, 2⟩]⟩, ⟨[2], [⟨.add, 5⟩]⟩, ⟨[7], []⟩]) ∧
    AllMean "1, x ,0:+;2,:".toList (.error (.badTarget "x".toList)) ∧
    (Pieces (· == ',') "1,03 ,1".toList ["1".toList, "03 ".toList, "1".toList] ∧
      Pieces (· == ',') "03 ,1".toList ["03 ".toList, "1".toList] ∧
      (∀ entry, entry ∈ ["03 ".toList, "1".toList] ↔
        entry ∈ ["1".toList, "03 ".toList, "1".toList]) ∧
      TargetsMean "1,03 ,1".toList (.ok [1, 3]) ∧ TargetsMean "03 ,1".toList (.ok [1, 3])) := by
  obtain ⟨hread, hset⟩ := readAll_iff_mean
  have hentries : Pieces (· == ',') "1,03 ,1".toList ["1".toList, "03 ".toList, "1".toList] :=
    pieces_iff.mpr (by decide +kernel)
  have hothers : Pieces (· == ',') "03 ,1".toList ["03 ".toList, "1".toList] :=
    pieces_iff.mpr (by decide +kernel)
  have hmem : ∀ entry, entry ∈ ["03 ".toList, "1".toList] ↔
      entry ∈ ["1".toList, "03 ".toList, "1".toList] := by
    intro entry
    simp only [List.mem_cons, List.not_mem_nil, or_false]
    tauto
  have hmean : TargetsMean "1,03 ,1".toList (.ok [1, 3]) :=
    readTargets_iff_targetsMean.mp (by decide +kernel)
  refine ⟨(hread _ _).mp (by decide +kernel), (hread _ _).mp (by decide +kernel), hentries, hothers,
    hmem, hmean, hset _ _ _ _ _ hentries hothers hmem hmean⟩

end DiceNotation.Group
