/-
  Targeted groups read back.

  A group is written as an `i`, its targets with commas between, a `:` and its steps; groups are
  joined with a `;`.  So between two groups stand a `;` AND an `i`, and the reader cuts at both.

  1. A target list has figures and commas in it.  It is split at the commas again, and since it is
     ascending it is a target set already (`readTargets_text`).
  2. The `:` is written even before no steps at all.  It is the first one, since no figure and no
     comma is a `:`, and it keeps the piece from being blank (`read_body`).
  3. Cutting the groups apart gives a blank piece in front of each (`filter_split_text`).  The blank
     pieces are passed over, and what is left are the groups in order (`readAll_text`).
-/
import DiceNotation.Proofs.Step.ReadBack

namespace DiceNotation

open Text

namespace Group

variable {group : Group} {groups : List Group} {ts : List Nat} {p : Char → Bool}

/-- What can be written and read again: a set of positions that is not empty, kept as an ascending
    list, and steps whose operands are finite with a clear sign. -/
structure IsCanonical (group : Group) : Prop where
  some_target : group.targets ≠ []
  ascending : group.targets.Pairwise (· < ·)
  positions : ∀ t ∈ group.targets, 1 ≤ t ∧ t < 2 ^ 64
  plain : ∀ step ∈ group.steps, step.operand.IsPlain

instance (group : Group) : Decidable group.IsCanonical :=
  decidable_of_iff (group.targets ≠ [] ∧ group.targets.Pairwise (· < ·) ∧
      (∀ t ∈ group.targets, 1 ≤ t ∧ t < 2 ^ 64) ∧ ∀ step ∈ group.steps, step.operand.IsPlain)
    ⟨fun ⟨h1, h2, h3, h4⟩ => ⟨h1, h2, h3, h4⟩, fun ⟨h1, h2, h3, h4⟩ => ⟨h1, h2, h3, h4⟩⟩

/-! ## Targets -/

theorem insertTarget_of_lt {t : Nat} (h : ∀ u ∈ ts, t < u) : insertTarget t ts = t :: ts := by
  cases ts with
  | nil => rfl
  | cons u us => exact if_pos (h u List.mem_cons_self)

/-- An ascending list is a set already. -/
theorem targetSet_of_ascending (h : ts.Pairwise (· < ·)) : targetSet ts = ts := by
  induction ts with
  | nil => rfl
  | cons t ts ih =>
    obtain ⟨hlt, hts⟩ := List.pairwise_cons.mp h
    show insertTarget t (targetSet ts) = t :: ts
    rw [ih hts, insertTarget_of_lt hlt]

theorem target?_ofNat {t : Nat} (hpos : 1 ≤ t) (hlt : t < 2 ^ 64) :
    target? (Numeral.ofNat t) = some t := by
  rw [target?, Numeral.trimGap_ofNat, Numeral.digits?_ofNat, Option.filter_some, if_pos (by simp; omega)]

/-- The targets as they are written. -/
def targetsText (ts : List Nat) : Text :=
  List.intercalate [','] (ts.map Numeral.ofNat)

theorem targetsText_freeOf (hp : FreeOf p Numeral.figures) (hcomma : p ',' = false)
    (ts : List Nat) : FreeOf p (targetsText ts) := by
  apply freeOf_intercalate (freeOf_cons.mpr ⟨hcomma, freeOf_nil⟩)
  intro s hs
  obtain ⟨t, -, rfl⟩ := List.mem_map.mp hs
  exact Numeral.freeOf_ofNat hp t

/-- **A set of positions reads back.** -/
theorem readTargets_text (hsome : ts ≠ []) (hasc : ts.Pairwise (· < ·))
    (hpos : ∀ t ∈ ts, 1 ≤ t ∧ t < 2 ^ 64) : readTargets (targetsText ts) = .ok ts := by
  have hsplit : Text.split (· == ',') (targetsText ts) = ts.map Numeral.ofNat := by
    cases ts with
    | nil => exact absurd rfl hsome
    | cons t ts =>
      apply split_intercalate (by decide)
      intro s hs
      obtain ⟨u, -, rfl⟩ := List.mem_map.mp (List.map_cons ▸ hs)
      exact Numeral.freeOf_ofNat (by decide) u
  unfold readTargets
  rw [hsplit, mapM_map_eq_ok (g := id)]
  · show Except.ok (targetSet (ts.map id)) = _
    rw [List.map_id, targetSet_of_ascending hasc]
  · intro t ht
    obtain ⟨h1, h64⟩ := hpos t ht
    rw [target?_ofNat h1 h64]
    rfl

/-! ## One group -/

/-- A group as it is written, without the `i` in front. -/
def body (group : Group) : Text :=
  targetsText group.targets ++ ':' :: group.steps.flatMap Step.text

theorem text_eq (group : Group) : group.text = targetSigil :: group.body := by
  simp only [text, body, targetsText, List.append_assoc, List.cons_append, List.nil_append]

/-- A group has figures and operators in it, commas and a `:`. -/
theorem body_freeOf (h : ∀ step ∈ group.steps, step.operand.IsPlain)
    (hp : FreeOf p Numeral.figures) (hsigil : ∀ o : Operator, p o.sigil = false)
    (hcomma : p ',' = false) (hcolon : p ':' = false) : group.body.FreeOf p := by
  refine freeOf_append.mpr ⟨targetsText_freeOf hp hcomma _, freeOf_cons.mpr ⟨hcolon, ?_⟩⟩
  exact Step.flatMap_text_freeOf h hsigil hp

theorem body_not_blank (group : Group) : group.body.isAllBlank = false := by
  have hcolon : ':' ∈ group.body :=
    List.mem_append_right _ List.mem_cons_self
  apply Bool.eq_false_iff.mpr
  intro hblank
  exact absurd (List.all_eq_true.mp hblank ':' hcolon) (by decide)

/-- **A group reads back.** -/
theorem read_body (h : group.IsCanonical) : read group.body = .ok group := by
  have hfree : FreeOf (· == ':') (targetsText group.targets) :=
    targetsText_freeOf (by decide) (by decide) _
  have hopen : OpensWith (· == ':') (':' :: group.steps.flatMap Step.text) :=
    opensWith_cons.mpr (by decide)
  have hparts : parts group.body
      = (targetsText group.targets, group.steps.flatMap Step.text) := by
    unfold parts body
    rw [onward_append hfree, onward_of_opensWith hopen, upTo_append hfree, upTo_of_opensWith hopen,
      List.append_nil]
  unfold read
  rw [hparts]
  show (readTargets (targetsText group.targets) >>= _) = _
  rw [readTargets_text h.some_target h.ascending h.positions]
  show (Step.scan .refused .add (group.steps.flatMap Step.text) >>= _) = _
  rw [Step.scan_text _ _ h.plain]
  rfl

/-! ## All groups -/

/-- The groups as they are written. -/
def allText (groups : List Group) : Text :=
  List.intercalate [';'] (groups.map text)

theorem allText_freeOf (h : ∀ group ∈ groups, ∀ step ∈ group.steps, step.operand.IsPlain)
    (hp : FreeOf p Numeral.figures) (hsigil : ∀ o : Operator, p o.sigil = false)
    (hothers : p ',' = false ∧ p ':' = false ∧ p ';' = false ∧ p targetSigil = false) :
    FreeOf p (allText groups) := by
  obtain ⟨hcomma, hcolon, hsemi, htarget⟩ := hothers
  apply freeOf_intercalate (freeOf_cons.mpr ⟨hsemi, freeOf_nil⟩)
  intro s hs
  obtain ⟨group, hgroup, rfl⟩ := List.mem_map.mp hs
  rw [text_eq]
  exact freeOf_cons.mpr ⟨htarget, body_freeOf (h group hgroup) hp hsigil hcomma hcolon⟩

theorem allText_cons_cons (group next : Group) (groups : List Group) :
    allText (group :: next :: groups)
      = targetSigil :: (group.body ++ ';' :: allText (next :: groups)) := by
  show List.intercalate [';'] (group.text :: next.text :: groups.map text) = _
  rw [List.intercalate_cons_cons, text_eq, List.append_assoc]
  rfl

theorem allText_singleton (group : Group) : allText [group] = targetSigil :: group.body := by
  show List.intercalate [';'] [group.text] = _
  rw [List.intercalate_singleton, text_eq]

theorem allText_opensWith (groups : List Group) : OpensWith (· == targetSigil) (allText groups) := by
  match groups with
  | [] => exact opensWith_nil
  | [group] =>
    rw [allText_singleton]
    exact opensWith_cons.mpr rfl
  | group :: next :: groups =>
    rw [allText_cons_cons]
    exact opensWith_cons.mpr rfl

/-- An `i` cuts a blank piece off in front of it. -/
theorem split_targetSigil (s : Text) :
    Text.split isGroupDelimiter (targetSigil :: s) = [] :: Text.split isGroupDelimiter s :=
  split_append_cons freeOf_nil (by decide)

/-- **Groups are cut apart again**, the blank pieces between them passed over. -/
theorem filter_split_text (h : ∀ group ∈ groups, ∀ step ∈ group.steps, step.operand.IsPlain) :
    (Text.split isGroupDelimiter (allText groups)).filter (fun piece => !piece.isAllBlank)
      = groups.map body := by
  have hfree : ∀ group ∈ groups, group.body.FreeOf isGroupDelimiter := by
    intro group hgroup
    exact body_freeOf (h group hgroup) (by decide) (fun o => by cases o <;> rfl) (by decide)
      (by decide)
  have hkeep : ∀ (group : Group) (pieces : List Text),
      ([] :: group.body :: pieces).filter (fun piece : Text => !piece.isAllBlank)
        = group.body :: pieces.filter fun piece : Text => !piece.isAllBlank := by
    intro group pieces
    rw [List.filter_cons_of_neg (by decide), List.filter_cons_of_pos (by simp [body_not_blank])]
  -- what is needed of the groups is in `hfree` now, and that goes with the tail
  clear h
  induction groups with
  | nil => rfl
  | cons group groups ih =>
    have hgroup := hfree group List.mem_cons_self
    have htail := ih fun g hg => hfree g (List.mem_cons_of_mem _ hg)
    cases groups with
    | nil =>
      rw [allText_singleton, split_targetSigil, split_of_freeOf hgroup, hkeep]
      rfl
    | cons next groups =>
      rw [allText_cons_cons, split_targetSigil, split_append_cons hgroup (by decide), hkeep, htail]
      rfl

/-- **All groups read back**, in order. -/
theorem readAll_text (h : ∀ group ∈ groups, group.IsCanonical) :
    readAll (allText groups) = .ok groups := by
  unfold readAll
  rw [filter_split_text fun group hgroup => (h group hgroup).plain]
  have hread : ∀ group ∈ groups, read group.body = .ok (id group) := fun group hgroup =>
    read_body (h group hgroup)
  rw [mapM_map_eq_ok hread, List.map_id]

end Group

end DiceNotation
