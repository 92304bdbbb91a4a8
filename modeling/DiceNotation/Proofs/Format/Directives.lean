/-
  The format as a grammar: every part of it is decided by the last directive that asks for it.

  `Format.read` goes through the directives from left to right, with a format in hand that each of
  them changes.  Here is what a run of directives MEANS, with no format in hand:

  1. A directive can be wrong (`Wrong`): rows of a size that is none, a limit that is missing or is no
     integer.  The leftmost wrong directive is the fault of the whole, even if a later one would have
     overruled it.
  2. If none is wrong, a format has three parts that are decided apart from each other.  For each there
     is a relation that says which directives ask for it and how (`AsksLayout`, `AsksRowSize`,
     `AsksThreshold`).  The last one that asks decides, whatever stands before, between and behind
     (`Latest`); if none asks, the part is that of the plain format.

  One directive turns each part into what it asks for or leaves it, and is refused exactly if it is
  wrong, whatever format is in hand (`steps_withDirective`).  The induction is on the run with its LAST
  directive taken off (`directivesMean_ofDirectives`), because the last one decides.
-/
import DiceNotation.Proofs.Numeral.Spelling
import DiceNotation.Proofs.Roll.Composition
import Mathlib.Data.List.Induction

namespace DiceNotation

open Text Numeral

/-! ## The last one that asks -/

section Latest

variable {α β : Type} {asks : α → β → Prop} {otherwise before after b c : β} {x : α} {xs : List α}

/-- What the last item decides that asks for something; if none does, it is as it would be
    otherwise. -/
inductive Latest (asks : α → β → Prop) (otherwise : β) : List α → β → Prop
  | unasked {xs : List α} (h : ∀ x ∈ xs, ∀ b, ¬ asks x b) : Latest asks otherwise xs otherwise
  | asked {front rest : List α} {x : α} {b : β} (h : asks x b)
      (hrest : ∀ y ∈ rest, ∀ c, ¬ asks y c) : Latest asks otherwise (front ++ x :: rest) b

/-- An item turns what there was into what it asks for, or leaves it. -/
def Turns (asks : α → β → Prop) (x : α) (before after : β) : Prop :=
  asks x after ∨ (∀ b, ¬ asks x b) ∧ after = before

theorem Turns.of_asks (h : asks x after) : Turns asks x before after :=
  Or.inl h

theorem Turns.of_not_asks (h : ∀ b, ¬ asks x b) : Turns asks x before before :=
  Or.inr ⟨h, rfl⟩

/-- **One more item** decides, or leaves the decision to those before it. -/
theorem Latest.concat (h : Latest asks otherwise xs before) (hx : Turns asks x before after) :
    Latest asks otherwise (xs ++ [x]) after := by
  rcases hx with hasks | ⟨hnone, rfl⟩
  · exact .asked hasks fun y hy => absurd hy List.not_mem_nil
  · have hlast : ∀ y ∈ [x], ∀ c, ¬ asks y c := by
      intro y hy
      rw [List.mem_singleton.mp hy]
      exact hnone
    cases h with
    | unasked hxs => exact .unasked (List.forall_mem_append.mpr ⟨hxs, hlast⟩)
    | asked hasks hrest =>
      rw [List.append_assoc, List.cons_append]
      exact .asked hasks (List.forall_mem_append.mpr ⟨hrest, hlast⟩)

/-- **No item that asks stands behind the last one that does**: an item of the rest that asks can only
    be the last one itself. -/
theorem eq_of_last_asks (hone : ∀ x b c, asks x b → asks x c → b = c) {y : α}
    {rest mid rest' : List α} (hcut : x :: rest = mid ++ y :: rest') (hx : asks x b)
    (hrest : ∀ z ∈ rest, ∀ c, ¬ asks z c) (hy : asks y c) : b = c := by
  cases mid with
  | nil =>
    obtain ⟨rfl, -⟩ := List.cons.inj hcut
    exact hone x b c hx hy
  | cons z mid =>
    obtain ⟨-, rfl⟩ := List.cons.inj hcut
    exact absurd hy (hrest y (List.mem_append_right _ List.mem_cons_self) c)

/-- **There is one decision**, if no item asks for two things at once. -/
theorem Latest.unique (hone : ∀ x b c, asks x b → asks x c → b = c)
    (hb : Latest asks otherwise xs b) (hc : Latest asks otherwise xs c) : b = c := by
  cases hb with
  | unasked hnone =>
    cases hc with
    | unasked _ => rfl
    | asked hasks _ =>
      exact absurd hasks (hnone _ (List.mem_append_right _ List.mem_cons_self) _)
  | @asked front rest x _ hasks hrest =>
    generalize hwhole : front ++ x :: rest = whole at hc
    cases hc with
    | unasked hnone =>
      refine absurd hasks (hnone x ?_ b)
      rw [← hwhole]
      exact List.mem_append_right _ List.mem_cons_self
    | @asked front' rest' x' _ hasks' hrest' =>
      -- of two last ones that ask, neither stands behind the other
      rcases List.append_eq_append_iff.mp hwhole with ⟨mid, -, hmid⟩ | ⟨mid, -, hmid⟩
      · exact eq_of_last_asks hone hmid hasks hrest hasks'
      · exact (eq_of_last_asks hone hmid hasks' hrest' hasks).symm

end Latest

/-- The side of the limit that a directive sets; the others set none. -/
def Directive.side? : Directive → Option Side
  | greater => some .upward
  | less => some .downward
  | list => none
  | sum => none

namespace Format

variable {format after : Format} {x : Directive × Text} {directive : Directive} {argument s : Text}
  {directives : List (Directive × Text)} {fault : Fault}

/-! ## What a directive asks for -/

/-- The layout that a directive asks for. -/
inductive AsksLayout : Directive × Text → Layout → Prop
  | sum {argument : Text} : AsksLayout (.sum, argument) .sumOnly
  | list {argument : Text} (hblank : argument.isAllBlank = true) :
      AsksLayout (.list, argument) .listOnly
  | rows {argument : Text} (hsome : argument.isAllBlank = false) :
      AsksLayout (.list, argument) .rows

/-- The row size that a directive asks for: a positive integer of 64 bits with a sign. -/
inductive AsksRowSize : Directive × Text → Nat → Prop
  | list {argument : Text} {size : Nat} (h : Spells argument.trim size) (hpos : 1 ≤ size)
      (hle : (size : Int) ≤ Int64.maxValue.toInt) : AsksRowSize (.list, argument) size

/-- The threshold that a directive asks for. -/
inductive AsksThreshold : Directive × Text → Option Threshold → Prop
  | limit {directive : Directive} {argument : Text} {side : Side} {limit : Int64}
      (hside : directive.side? = some side) (h : Spells argument.trim limit.toInt) :
      AsksThreshold (directive, argument) (some ⟨limit, side⟩)

/-- What is wrong with a directive, if anything is. -/
inductive Wrong : Directive × Text → Fault → Prop
  | rowSize {argument : Text} (hsome : argument.isAllBlank = false)
      (hnone : ∀ size, ¬ AsksRowSize (.list, argument) size) :
      Wrong (.list, argument) (.badArgument .list argument.trim)
  | missing {directive : Directive} {argument : Text} {side : Side}
      (hside : directive.side? = some side) (hblank : argument.isAllBlank = true) :
      Wrong (directive, argument) (.missingLimit directive)
  | limit {directive : Directive} {argument : Text} {side : Side}
      (hside : directive.side? = some side) (hsome : argument.isAllBlank = false)
      (hnone : ∀ threshold, ¬ AsksThreshold (directive, argument) threshold) :
      Wrong (directive, argument) (.badArgument directive argument.trim)

theorem AsksLayout.unique (x : Directive × Text) (a b : Layout) (ha : AsksLayout x a)
    (hb : AsksLayout x b) : a = b := by
  cases ha with
  | sum =>
    cases hb
    rfl
  | list hblank =>
    cases hb with
    | list => rfl
    | rows hsome => exact nomatch hblank.symm.trans hsome
  | rows hsome =>
    cases hb with
    | list hblank => exact nomatch hblank.symm.trans hsome
    | rows => rfl

theorem AsksRowSize.unique (x : Directive × Text) (m n : Nat) (hm : AsksRowSize x m)
    (hn : AsksRowSize x n) : m = n := by
  cases hm with
  | list h _ _ =>
    cases hn with
    | list h' _ _ =>
      have hsame := (plain?_eq_some_iff.mpr h).symm.trans (plain?_eq_some_iff.mpr h')
      exact Int.ofNat.inj (Option.some.inj hsame)

theorem asksThreshold_iff {side : Side} {threshold : Option Threshold}
    (hside : directive.side? = some side) : AsksThreshold (directive, argument) threshold ↔
      ∃ limit, signed? argument.trim = some limit ∧ threshold = some ⟨limit, side⟩ := by
  constructor
  · intro h
    cases h with
    | limit hside' h =>
      obtain rfl := Option.some.inj (hside.symm.trans hside')
      exact ⟨_, signed?_eq_some_iff.mpr h, rfl⟩
  · rintro ⟨limit, hlimit, rfl⟩
    exact .limit hside (signed?_eq_some_iff.mp hlimit)

theorem AsksThreshold.unique (x : Directive × Text) (a b : Option Threshold)
    (ha : AsksThreshold x a) (hb : AsksThreshold x b) : a = b := by
  cases ha with
  | limit hside h =>
    obtain ⟨limit, hlimit, rfl⟩ := (asksThreshold_iff hside).mp hb
    obtain rfl := Option.some.inj ((signed?_eq_some_iff.mpr h).symm.trans hlimit)
    rfl

/-- **A row size is read if it is asked for.** -/
theorem asksRowSize_iff {size : Nat} : AsksRowSize (.list, argument) size ↔
    ∃ read, (signed? argument.trim).filter (0 < ·) = some read ∧ read.toInt.toNat = size := by
  have hmin : Int64.minValue.toInt = -2 ^ 63 := by decide
  constructor
  · intro h
    cases h with
    | list h hpos hle =>
      have hback : (Int64.ofInt size).toInt = size := by
        apply Int64.toInt_ofInt_of_le
        · omega
        · exact Int.lt_of_le_of_lt hle (by decide)
      have hread : signed? argument.trim = some (Int64.ofInt size) :=
        signed?_eq_some_iff.mpr (by rwa [hback])
      refine ⟨_, Option.filter_eq_some_iff.mpr ⟨hread, ?_⟩, by rw [hback, Int.toNat_natCast]⟩
      rw [decide_eq_true_iff, Int64.lt_iff_toInt_lt, hback]
      exact Int.natCast_pos.mpr hpos
  · rintro ⟨read, hread, rfl⟩
    obtain ⟨hsigned, hpos⟩ := Option.filter_eq_some_iff.mp hread
    have hpos : (0 : Int) < read.toInt := Int64.lt_iff_toInt_lt.mp (of_decide_eq_true hpos)
    have hsame : (read.toInt.toNat : Int) = read.toInt := Int.toNat_of_nonneg (Int.le_of_lt hpos)
    refine .list ?_ (by omega) ?_
    · rw [hsame]
      exact signed?_eq_some_iff.mp hsigned
    · rw [hsame]
      exact read.toInt_le

/-- A list directive that is wrong has an argument, and none that is a row size. -/
theorem Wrong.of_list (h : Wrong (.list, argument) fault) :
    argument.isAllBlank = false ∧ ∀ size, ¬ AsksRowSize (.list, argument) size := by
  cases h with
  | rowSize hsome hnone => exact ⟨hsome, hnone⟩
  | missing hside _ => exact nomatch hside
  | limit hside _ _ => exact nomatch hside

/-- There is one thing wrong with a directive at most. -/
theorem Wrong.unique {fault' : Fault} (h : Wrong x fault) (h' : Wrong x fault') :
    fault = fault' := by
  cases h with
  | rowSize =>
    cases h' with
    | rowSize => rfl
    | missing hside _ => exact nomatch hside
    | limit hside _ _ => exact nomatch hside
  | missing hside hblank =>
    cases h' with
    | rowSize => exact nomatch hside
    | missing => rfl
    | limit _ hsome _ => exact nomatch hblank.symm.trans hsome
  | limit hside hsome _ =>
    cases h' with
    | rowSize => exact nomatch hside
    | missing _ hblank => exact nomatch hblank.symm.trans hsome
    | limit => rfl

/-! ## One directive -/

/-- What one directive makes of a format: a fault if it is wrong, and else a format with each part
    turned into what it asks for, or left. -/
inductive Steps (x : Directive × Text) (format : Format) : Except Fault Format → Prop
  | refused {fault : Fault} (h : Wrong x fault) : Steps x format (.error fault)
  | taken {after : Format} (hright : ∀ fault, ¬ Wrong x fault)
      (hlayout : Turns AsksLayout x format.layout after.layout)
      (hrowSize : Turns AsksRowSize x format.rowSize after.rowSize)
      (hthreshold : Turns AsksThreshold x format.threshold after.threshold) :
      Steps x format (.ok after)

theorem not_asksThreshold (hside : directive.side? = none) (threshold : Option Threshold) :
    ¬ AsksThreshold (directive, argument) threshold := by
  intro h
  cases h with
  | limit hside' _ => exact nomatch hside.symm.trans hside'

/-- A limit directive asks for a threshold and for nothing else. -/
theorem steps_withThreshold {side : Side} (format : Format) (hside : directive.side? = some side) :
    Steps (directive, argument) format
      (format.withThreshold directive side argument.trim) := by
  cases hblank : argument.isAllBlank with
  | true =>
    rw [withThreshold, if_pos (trim_eq_nil_iff.mpr hblank)]
    exact .refused (.missing hside hblank)
  | false =>
    rw [withThreshold, if_neg (trim_ne_nil hblank)]
    cases hread : signed? argument.trim with
    | none =>
      refine .refused (.limit hside hblank fun threshold h => ?_)
      obtain ⟨limit, hlimit, -⟩ := (asksThreshold_iff hside).mp h
      exact nomatch hread.symm.trans hlimit
    | some limit =>
      have hasks : AsksThreshold (directive, argument) (some ⟨limit, side⟩) :=
        (asksThreshold_iff hside).mpr ⟨limit, hread, rfl⟩
      refine .taken ?_ (.of_not_asks ?_) (.of_not_asks ?_) (.of_asks hasks)
      · intro fault h
        cases h with
        | rowSize => exact nomatch hside
        | missing _ hblank' => exact nomatch hblank'.symm.trans hblank
        | limit _ _ hnone => exact hnone _ hasks
      · intro layout h
        cases h with
        | sum => exact nomatch hside
        | list => exact nomatch hside
        | rows => exact nomatch hside
      · intro size h
        cases h with
        | list => exact nomatch hside

/-- A list directive asks for a layout, and for a row size if it has an argument. -/
theorem steps_withDirective_list (format : Format) (argument : Text) :
    Steps (.list, argument) format (format.withDirective .list argument.trim) := by
  cases hblank : argument.isAllBlank with
  | true =>
    rw [withDirective, if_pos (trim_eq_nil_iff.mpr hblank)]
    refine .taken ?_ (.of_asks (.list hblank)) (.of_not_asks ?_)
      (.of_not_asks (not_asksThreshold rfl))
    · intro fault h
      exact nomatch hblank.symm.trans h.of_list.1
    · -- there is no number in a blank argument
      intro size h
      obtain ⟨read, hread, -⟩ := asksRowSize_iff.mp h
      rw [trim_eq_nil_iff.mpr hblank] at hread
      exact nomatch hread
  | false =>
    rw [withDirective, if_neg (trim_ne_nil hblank)]
    cases hread : (signed? argument.trim).filter (0 < ·) with
    | none =>
      refine .refused (.rowSize hblank fun size h => ?_)
      obtain ⟨read, hsome, -⟩ := asksRowSize_iff.mp h
      exact nomatch hread.symm.trans hsome
    | some size =>
      have hasks : AsksRowSize (.list, argument) size.toInt.toNat :=
        asksRowSize_iff.mpr ⟨size, hread, rfl⟩
      exact .taken (fun fault h => h.of_list.2 _ hasks) (.of_asks (.rows hblank)) (.of_asks hasks)
        (.of_not_asks (not_asksThreshold rfl))

/-- **What one directive does**, one case for each directive. -/
theorem steps_withDirective (format : Format) (x : Directive × Text) :
    Steps x format (format.withDirective x.1 x.2.trim) := by
  obtain ⟨directive, argument⟩ := x
  cases directive with
  | list => exact steps_withDirective_list format argument
  | greater => exact steps_withThreshold format rfl
  | less => exact steps_withThreshold format rfl
  | sum =>
    refine .taken ?_ (.of_asks .sum) (.of_not_asks ?_) (.of_not_asks (not_asksThreshold rfl))
    · intro fault h
      cases h with
      | missing hside _ => exact nomatch hside
      | limit hside _ _ => exact nomatch hside
    · intro size h
      cases h

/-! ## A run of directives -/

/-- What a run of directives means: the fault of the leftmost wrong one, or a format of which each
    part is decided by the last one that asks for it. -/
inductive DirectivesMean (directives : List (Directive × Text)) : Except Fault Format → Prop
  | fault {before after : List (Directive × Text)} {x : Directive × Text} {fault : Fault}
      (hcut : directives = before ++ x :: after) (hbefore : ∀ y ∈ before, ∀ e, ¬ Wrong y e)
      (hwrong : Wrong x fault) : DirectivesMean directives (.error fault)
  | format {format : Format} (hright : ∀ x ∈ directives, ∀ e, ¬ Wrong x e)
      (hlayout : Latest AsksLayout .valuesAndSum directives format.layout)
      (hrowSize : Latest AsksRowSize 20 directives format.rowSize)
      (hthreshold : Latest AsksThreshold none directives format.threshold) :
      DirectivesMean directives (.ok format)

theorem ofDirectives_append (first rest : List (Directive × Text)) :
    ofDirectives (first ++ rest) = ofDirectives first >>= fun format =>
      rest.foldlM (fun format x => format.withDirective x.1 x.2.trim) format :=
  List.foldlM_append

theorem ofDirectives_concat (first : List (Directive × Text)) (x : Directive × Text) :
    ofDirectives (first ++ [x]) = ofDirectives first >>= fun format =>
      format.withDirective x.1 x.2.trim := by
  rw [ofDirectives_append]
  simp only [List.foldlM_cons, List.foldlM_nil, bind_pure]

/-- **A run means what is made of it.**  Induction on the run, its last directive apart: that one
    decides what it asks for, and leaves the rest to those in front of it. -/
theorem directivesMean_ofDirectives (directives : List (Directive × Text)) :
    DirectivesMean directives (ofDirectives directives) := by
  induction directives using List.reverseRecOn with
  | nil =>
    have hnone : ∀ x ∈ ([] : List (Directive × Text)), False := fun x hx => List.not_mem_nil hx
    exact .format (fun x hx => (hnone x hx).elim) (.unasked fun x hx => (hnone x hx).elim)
      (.unasked fun x hx => (hnone x hx).elim) (.unasked fun x hx => (hnone x hx).elim)
  | append_singleton first x ih =>
    rw [ofDirectives_concat]
    generalize ofDirectives first = found at ih
    cases ih with
    | @fault before after y _ hcut hbefore hwrong =>
      have hcut' : first ++ [x] = before ++ y :: (after ++ [x]) := by
        rw [hcut, List.append_assoc, List.cons_append]
      exact .fault hcut' hbefore hwrong
    | @format format hright hlayout hrowSize hthreshold =>
      show DirectivesMean (first ++ [x]) (format.withDirective x.1 x.2.trim)
      have hsteps := steps_withDirective format x
      generalize format.withDirective x.1 x.2.trim = result at hsteps ⊢
      cases hsteps with
      | refused hwrong => exact .fault rfl hright hwrong
      | taken hlast hlayout' hrowSize' hthreshold' =>
        refine .format (List.forall_mem_append.mpr ⟨hright, fun y hy => ?_⟩)
          (hlayout.concat hlayout') (hrowSize.concat hrowSize') (hthreshold.concat hthreshold')
        rw [List.mem_singleton.mp hy]
        exact hlast

/-- **A run fails exactly if one of its directives is wrong.** -/
theorem ofDirectives_fails_iff : (∃ fault, ofDirectives directives = .error fault) ↔
    ∃ x ∈ directives, ∃ fault, Wrong x fault := by
  have hmeans := directivesMean_ofDirectives directives
  generalize ofDirectives directives = found at hmeans ⊢
  constructor
  · rintro ⟨fault, rfl⟩
    cases hmeans with
    | @fault before after x _ hcut _ hwrong =>
      refine ⟨x, ?_, fault, hwrong⟩
      rw [hcut]
      exact List.mem_append_right _ List.mem_cons_self
  · rintro ⟨x, hx, fault, hwrong⟩
    cases hmeans with
    | @fault before after y fault' _ _ _ => exact ⟨fault', rfl⟩
    | format hright _ _ _ => exact absurd hwrong (hright x hx fault)

theorem exists_ofDirectives (h : ∀ x ∈ directives, ∀ e, ¬ Wrong x e) :
    ∃ format, ofDirectives directives = .ok format := by
  cases hfound : ofDirectives directives with
  | ok format => exact ⟨format, rfl⟩
  | error fault =>
    obtain ⟨x, hx, e, hwrong⟩ := ofDirectives_fails_iff.mp ⟨fault, hfound⟩
    exact absurd hwrong (h x hx e)

/-- **A run is made of what it means**, and it means one thing only. -/
theorem ofDirectives_iff_directivesMean {result : Except Fault Format} :
    ofDirectives directives = result ↔ DirectivesMean directives result := by
  constructor
  · rintro rfl
    exact directivesMean_ofDirectives directives
  · intro h
    cases h with
    | @fault before after x fault hcut hbefore hwrong =>
      obtain ⟨format, hfirst⟩ := exists_ofDirectives hbefore
      have hhere : ofDirectives (before ++ [x]) = .error fault := by
        rw [ofDirectives_concat, hfirst]
        show format.withDirective x.1 x.2.trim = .error fault
        have hsteps := steps_withDirective format x
        generalize format.withDirective x.1 x.2.trim = result at hsteps ⊢
        cases hsteps with
        | refused hwrong' => rw [hwrong.unique hwrong']
        | taken hright => exact absurd hwrong (hright fault)
      -- and there the run ends
      rw [hcut, List.append_cons, ofDirectives_append, hhere]
      rfl
    | @format format hright hlayout hrowSize hthreshold =>
      obtain ⟨found, hfound⟩ := exists_ofDirectives hright
      have hmeans := directivesMean_ofDirectives directives
      rw [hfound] at hmeans ⊢
      cases hmeans with
      | format _ hlayout' hrowSize' hthreshold' =>
        obtain ⟨layout, rowSize, threshold⟩ := format
        obtain ⟨layout', rowSize', threshold'⟩ := found
        obtain rfl : layout' = layout := hlayout'.unique AsksLayout.unique hlayout
        obtain rfl : rowSize' = rowSize := hrowSize'.unique AsksRowSize.unique hrowSize
        obtain rfl : threshold' = threshold := hthreshold'.unique AsksThreshold.unique hthreshold
        rfl

/-! ## The whole text -/

/-- What a text means as an expression with a format at its end: what stands in front of the first
    directive, and what the directives mean. -/
inductive Means (s : Text) : Except Fault (Text × Format) → Prop
  | directives {core : Text} {directives : List (Directive × Text)} {found : Except Fault Format}
      (hruns : Runs Directive.ofSigil? Directive.sigil s core directives)
      (hread : DirectivesMean directives found) :
      Means s (found.map fun format => (core, format))

theorem read_of_runs {core : Text}
    (hruns : Runs Directive.ofSigil? Directive.sigil s core directives) :
    read s = (ofDirectives directives).map fun format => (core, format) := by
  have hcut := (runs_iff fun _ _ => Directive.ofSigil?_eq_some_iff).mp hruns
  rw [read_eq, show s.upTo Directive.isSigil = (s.cut Directive.ofSigil?).1 from (cut_fst _ _).symm,
    hcut]

theorem read_fails_of_runs {core : Text}
    (hruns : Runs Directive.ofSigil? Directive.sigil s core directives) :
    (∃ fault, read s = .error fault) ↔ ∃ x ∈ directives, ∃ fault, Wrong x fault := by
  rw [read_of_runs hruns, ← ofDirectives_fails_iff]
  cases ofDirectives directives with
  | error e => simp [Except.map]
  | ok format => simp [Except.map]

/-- **The last directive that asks decides, and the leftmost wrong one is the fault.**  For every text
    the reader gives what the text means as an expression with a format, and nothing else is meant by
    it; it fails exactly if one of the directives is wrong. -/
theorem read_lastWins (s : Text) :
    (∀ result, read s = result ↔ Means s result) ∧
    ((∃ fault, read s = .error fault) ↔
      ∃ core directives, Runs Directive.ofSigil? Directive.sigil s core directives ∧
        ∃ x ∈ directives, ∃ fault, Wrong x fault) := by
  have hruns := runs_cut (fun _ _ => Directive.ofSigil?_eq_some_iff) s
  refine ⟨fun result => ⟨?_, ?_⟩, ⟨fun h => ?_, ?_⟩⟩
  · rintro rfl
    rw [read_of_runs hruns]
    exact .directives hruns (directivesMean_ofDirectives _)
  · intro h
    cases h with
    | directives hruns hread => rw [read_of_runs hruns, ofDirectives_iff_directivesMean.mpr hread]
  · exact ⟨_, _, hruns, (read_fails_of_runs hruns).mp h⟩
  · rintro ⟨core, directives, hruns, hwrong⟩
    exact (read_fails_of_runs hruns).mpr hwrong

/-- Rows of five, and a limit of minus fifteen: each directive asks for its part, and what is read is
    all that the text means. -/
theorem read_lastWins_rowsAndLimit :
    let s : Text := "3d6l5>-15".toList
    let directives : List (Directive × Text) := [(.list, "5".toList), (.greater, "-15".toList)]
    let format : Format := ⟨.rows, 5, some ⟨-15, .upward⟩⟩
    Runs Directive.ofSigil? Directive.sigil s "3d6".toList directives ∧
    AsksRowSize (.list, "5".toList) 5 ∧
    AsksThreshold (.greater, "-15".toList) (some ⟨-15, .upward⟩) ∧
    read s = .ok ("3d6".toList, format) ∧
    ∀ result, Means s result ↔ result = .ok ("3d6".toList, format) := by
  intro s directives format
  have hrows : Spells ['5'] 5 := .bare (by decide) (by decide)
  have hlimit : Spells ['-', '1', '5'] (-15) :=
    @Spells.minus ['1', '5'] (by decide) (by decide)
  have hread : read s = .ok ("3d6".toList, format) := by decide +kernel
  obtain ⟨hlast, -⟩ := read_lastWins s
  refine ⟨⟨by decide, by decide, by decide⟩, .list hrows (by decide) (by decide),
    .limit rfl hlimit, hread, fun result => ?_⟩
  rw [← hlast result, hread]
  exact eq_comm

/-- The row size stays from the directive before the last, and the sum does not mind its argument. -/
example : read "3d6 l 4 >2s9<-3l".toList =
    .ok ("3d6 ".toList, ⟨.listOnly, 4, some ⟨-3, .downward⟩⟩) := by
  decide +kernel

/-- A limit that is none is the fault, although a later directive sets another one. -/
example : read "d6l3>x<5".toList = .error (.badArgument .greater ['x']) := by decide +kernel

end Format

end DiceNotation
