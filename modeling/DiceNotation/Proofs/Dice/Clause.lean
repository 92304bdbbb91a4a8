/-
  The dice clause as a grammar.

  `Dice.read` cuts, trims and tests in an order of its own.  Here is what a clause MEANS, with no word
  about how that is found (`Dice.Means`):

  1. A text without any `d` means one die from 1 to 100.
  2. Otherwise what stands in front of the first `d` says a count (`SaysCount`): digits with gaps
     around them say their number, however many they are, and everything else says one.
  3. What stands behind it says two bounds, or none that can be used (`SaysBounds`).
  4. Of several things that are wrong the first counts: too many dice, then bounds that are none, then
     no dice at all.  If nothing is wrong, the dice have the bounds in ascending order.

  The reader gives what the clause means, for every text (`Dice.read_iff_means`).  So every clause means one
  thing, and no two rules of the grammar are ever at odds.
-/
import DiceNotation.Dice
import DiceNotation.Proofs.Numeral.Spelling

namespace DiceNotation.Dice

open Text Numeral

variable {s left right clause : Text} {n : Nat} {a b low high : Int64}

/-! ## The count -/

/-- The count that the text in front of the `d` says: the number that it is, or else one. -/
inductive SaysCount (left : Text) : Nat → Prop
  | written {n : Nat} (h : SaysNumber left n) : SaysCount left n
  | unwritten (h : ∀ n, ¬ SaysNumber left n) : SaysCount left 1

theorem countOf_iff : countOf left = n ↔ SaysCount left n := by
  unfold countOf
  cases hread : digits? left.trimGap with
  | some m =>
    have hsaid : SaysNumber left m := digits?_trimGap_iff.mp hread
    constructor
    · rintro rfl
      exact .written hsaid
    · intro h
      cases h with
      | written h =>
        rw [digits?_trimGap_iff.mpr h] at hread
        exact (Option.some.inj hread).symm
      | unwritten h => exact absurd hsaid (h m)
  | none =>
    have hnone : ∀ m, ¬ SaysNumber left m := by
      intro m hm
      rw [digits?_trimGap_iff.mpr hm] at hread
      cases hread
    constructor
    · rintro rfl
      exact .unwritten hnone
    · intro h
      cases h with
      | written h => exact absurd h (hnone n)
      | unwritten _ => rfl

/-! ## The bounds -/

/-- The bounds that the text behind the `d` says, in the order in which it says them. -/
inductive SaysBounds : Text → Int64 → Int64 → Prop
  | unwritten {s : Text} (h : InGaps [] s) : SaysBounds s 1 100
  | upper {s : Text} {high : Int64} (h : SaysInteger s high) : SaysBounds s 1 high
  | both {left right : Text} {low high : Int64} (hleft : SaysInteger left low)
      (hright : SaysInteger right high) : SaysBounds (left ++ ':' :: right) low high

/-- Neither a sign nor a digit is a `:`, and no gap is. -/
theorem freeOf_colon_of_saysInteger (h : SaysInteger s low) : FreeOf (· == ':') s := by
  obtain ⟨t, ⟨before, after, rfl, hbefore, hafter⟩, hspells⟩ := h
  refine freeOf_append.mpr ⟨freeOf_gaps (by decide) hbefore, freeOf_append.mpr ⟨?_, ?_⟩⟩
  · exact hspells.freeOf (by decide) rfl rfl
  · exact freeOf_gaps (by decide) hafter

theorem bounds?_of_freeOf (hfree : FreeOf (· == ':') s) :
    bounds? s = if s.trimGap = [] then some (defaultLow, defaultHigh)
      else (signed? s.trimGap).map fun high => (defaultLow, high) := by
  unfold bounds?
  simp only [onward_of_freeOf hfree.trimGap]

/-- **At the first `:` the bounds fall apart.**  Trimming the whole first makes no difference. -/
theorem bounds?_append_colon (hfree : FreeOf (· == ':') left) :
    bounds? (left ++ ':' :: right) = (signed? left.trimGap).bind fun low =>
      (signed? right.trimGap).map fun high => (low, high) := by
  have hfront : FreeOf (· == ':') (left.dropWhile isGap) :=
    fun c hc => hfree c (List.dropWhile_subset _ hc)
  have hsome : left.dropWhile isGap ++ ':' :: dropEnd isGap right ≠ [] :=
    List.append_ne_nil_of_right_ne_nil _ (List.cons_ne_nil _ _)
  have htrim : trimGap (left ++ ':' :: right) = left.dropWhile isGap ++ ':' :: dropEnd isGap right :=
    trimGap_append_cons (by decide)
  have hupTo : upTo (· == ':') (left.dropWhile isGap ++ ':' :: dropEnd isGap right)
      = left.dropWhile isGap := upTo_append_cons hfront rfl
  have honward : onward (· == ':') (left.dropWhile isGap ++ ':' :: dropEnd isGap right)
      = ':' :: dropEnd isGap right := onward_append_cons hfront rfl
  unfold bounds?
  simp only [htrim, if_neg hsome, hupTo, honward, trimGap_dropWhile, trimGap_dropEnd]
  cases signed? left.trimGap with
  | none => rfl
  | some low =>
    cases signed? right.trimGap with
    | none => rfl
    | some high => rfl

/-- **The bounds that are read are the bounds that are said.** -/
theorem bounds?_eq_some_iff : bounds? s = some (a, b) ↔ SaysBounds s a b := by
  by_cases hfree : FreeOf (· == ':') s
  · rw [bounds?_of_freeOf hfree]
    constructor
    · intro h
      split at h
      · rename_i hnil
        obtain ⟨rfl, rfl⟩ := Prod.mk.inj (Option.some.inj h)
        exact .unwritten (inGaps_nil_iff.mpr hnil)
      · obtain ⟨high, hhigh, h⟩ := Option.map_eq_some_iff.mp h
        obtain ⟨rfl, rfl⟩ := Prod.mk.inj h
        exact .upper (signed?_trimGap_iff.mp hhigh)
    · intro h
      cases h with
      | unwritten h =>
        rw [if_pos (inGaps_nil_iff.mp h)]
        rfl
      | upper h =>
        have hread := signed?_trimGap_iff.mpr h
        have hsome : s.trimGap ≠ [] := by
          intro hnil
          rw [hnil] at hread
          cases hread
        rw [if_neg hsome, hread]
        rfl
      | both _ _ =>
        have hcolon := hfree ':' (List.mem_append_right _ List.mem_cons_self)
        exact absurd hcolon (by decide)
  · obtain ⟨left, c, right, rfl, hleft, hc⟩ := exists_of_not_freeOf hfree
    obtain rfl : c = ':' := beq_iff_eq.mp hc
    rw [bounds?_append_colon hleft]
    constructor
    · intro h
      obtain ⟨low, hlow, h⟩ := Option.bind_eq_some_iff.mp h
      obtain ⟨high, hhigh, h⟩ := Option.map_eq_some_iff.mp h
      obtain ⟨rfl, rfl⟩ := Prod.mk.inj h
      exact .both (signed?_trimGap_iff.mp hlow) (signed?_trimGap_iff.mp hhigh)
    · intro h
      generalize hs : left ++ ':' :: right = s at h hfree
      cases h with
      | unwritten h =>
        -- there is nothing but gaps, and a `:` is none
        obtain ⟨before, after, rfl, hbefore, hafter⟩ := h
        refine absurd (freeOf_append.mpr ⟨freeOf_gaps (by decide) hbefore, ?_⟩) hfree
        exact freeOf_gaps (by decide) hafter
      | upper h => exact absurd (freeOf_colon_of_saysInteger h) hfree
      | both hlow hhigh =>
        -- the first `:` is the one between the two integers
        obtain ⟨rfl, heq⟩ := append_inj_of_freeOf_of_opensWith hleft
          (opensWith_cons.mpr rfl) (freeOf_colon_of_saysInteger hlow) (opensWith_cons.mpr rfl) hs
        obtain ⟨-, rfl⟩ := List.cons.inj heq
        rw [signed?_trimGap_iff.mpr hlow, signed?_trimGap_iff.mpr hhigh]
        rfl

theorem bounds?_eq_none_iff : bounds? s = none ↔ ∀ a b, ¬ SaysBounds s a b := by
  constructor
  · intro h a b hbounds
    rw [bounds?_eq_some_iff.mpr hbounds] at h
    cases h
  · intro h
    cases hread : bounds? s with
    | none => rfl
    | some bounds => exact absurd (bounds?_eq_some_iff.mp hread) (h bounds.1 bounds.2)

/-! ## The clause -/

/-- What a clause means: dice, or what is wrong with it first. -/
inductive Means : Text → Except Fault Dice → Prop
  | unwritten {clause : Text} (hfree : FreeOf (· == 'd') clause) : Means clause (.ok ⟨1, 1, 100⟩)
  | tooMany {left right : Text} {n : Nat} (hleft : FreeOf (· == 'd') left)
      (hcount : SaysCount left n) (hmany : 10000 < n) :
      Means (left ++ 'd' :: right) (.error .tooManyDice)
  | malformed {left right : Text} {n : Nat} (hleft : FreeOf (· == 'd') left)
      (hcount : SaysCount left n) (hn : n ≤ 10000) (hnone : ∀ a b, ¬ SaysBounds right a b) :
      Means (left ++ 'd' :: right) (.error (.badNumber right.trim))
  | noDice {left right : Text} {a b : Int64} (hleft : FreeOf (· == 'd') left)
      (hcount : SaysCount left 0) (hbounds : SaysBounds right a b) :
      Means (left ++ 'd' :: right) (.error .noDice)
  | dice {left right : Text} {n : Nat} {a b low high : Int64} (hleft : FreeOf (· == 'd') left)
      (hcount : SaysCount left n) (hpos : 1 ≤ n) (hn : n ≤ 10000) (hbounds : SaysBounds right a b)
      (hlow : low.toInt = min a.toInt b.toInt) (hhigh : high.toInt = max a.toInt b.toInt) :
      Means (left ++ 'd' :: right) (.ok ⟨n, low, high⟩)

theorem ofBounds_zero (a b : Int64) : ofBounds 0 a b = .error .noDice := rfl

theorem ofBounds_of_count (hpos : 1 ≤ n) (hn : n ≤ maxDiceCount) :
    ofBounds n a b = .ok (if b < a then ⟨n, b, a⟩ else ⟨n, a, b⟩) := by
  have hzero : ¬ n = 0 := by omega
  have hmany : ¬ maxDiceCount < n := by omega
  unfold ofBounds
  rw [if_neg hzero, if_neg hmany]
  split
  · rfl
  · rfl

/-- **Dice are made of a count that is allowed, and of their bounds in ascending order.** -/
theorem ofBounds_eq_ok_iff {dice : Dice} :
    ofBounds n a b = .ok dice ↔ (1 ≤ n ∧ n ≤ maxDiceCount) ∧ dice.count = n ∧
      dice.low.toInt = min a.toInt b.toInt ∧ dice.high.toInt = max a.toInt b.toInt := by
  by_cases hcount : 1 ≤ n ∧ n ≤ maxDiceCount
  · rw [ofBounds_of_count hcount.1 hcount.2, and_iff_right hcount]
    obtain ⟨count, low, high⟩ := dice
    by_cases hba : b < a
    · have hlt : b.toInt < a.toInt := Int64.lt_iff_toInt_lt.mp hba
      rw [if_pos hba, Int.min_eq_right (by omega), Int.max_eq_left (by omega)]
      simp only [Except.ok.injEq, Dice.mk.injEq, Int64.toInt_inj]
      exact and_congr eq_comm (and_congr eq_comm eq_comm)
    · have hle : a.toInt ≤ b.toInt := Int64.le_iff_toInt_le.mp (Int64.not_lt.mp hba)
      rw [if_neg hba, Int.min_eq_left hle, Int.max_eq_right hle]
      simp only [Except.ok.injEq, Dice.mk.injEq, Int64.toInt_inj]
      exact and_congr eq_comm (and_congr eq_comm eq_comm)
  · constructor
    · intro h
      unfold ofBounds at h
      split at h
      · exact nomatch h
      · split at h
        · exact nomatch h
        · omega
    · intro h
      exact absurd h.1 hcount

theorem read_of_freeOf (hfree : FreeOf (· == 'd') clause) : read clause = .ok percentile := by
  unfold read
  rw [onward_of_freeOf hfree]

theorem read_append_d (hleft : FreeOf (· == 'd') left) :
    read (left ++ 'd' :: right) = if maxDiceCount < countOf left then .error .tooManyDice
      else match bounds? right with
        | none => .error (.badNumber right.trim)
        | some (a, b) => ofBounds (countOf left) a b := by
  have hupTo : upTo (· == 'd') (left ++ 'd' :: right) = left := upTo_append_cons hleft rfl
  have honward : onward (· == 'd') (left ++ 'd' :: right) = 'd' :: right :=
    onward_append_cons hleft rfl
  unfold read
  generalize upTo (· == 'd') (left ++ 'd' :: right) = front at hupTo ⊢
  generalize onward (· == 'd') (left ++ 'd' :: right) = rest at honward ⊢
  subst hupTo honward
  rfl

/-- A clause means what is read of it. -/
theorem means_read (clause : Text) : Means clause (read clause) := by
  by_cases hfree : FreeOf (· == 'd') clause
  · rw [read_of_freeOf hfree]
    exact .unwritten hfree
  · obtain ⟨left, c, right, rfl, hleft, hc⟩ := exists_of_not_freeOf hfree
    obtain rfl : c = 'd' := beq_iff_eq.mp hc
    have hcount : SaysCount left (countOf left) := countOf_iff.mp rfl
    rw [read_append_d hleft]
    split
    · rename_i hmany
      exact .tooMany hleft hcount hmany
    · rename_i hmany
      have hn : countOf left ≤ 10000 := Nat.not_lt.mp hmany
      split
      · rename_i hnone
        exact .malformed hleft hcount hn (bounds?_eq_none_iff.mp hnone)
      · rename_i a b hbounds
        have hsaid := bounds?_eq_some_iff.mp hbounds
        rcases Nat.eq_zero_or_pos (countOf left) with hzero | hpos
        · rw [hzero, ofBounds_zero]
          rw [hzero] at hcount
          exact .noDice hleft hcount hsaid
        · obtain ⟨dice, hmade⟩ : ∃ dice, ofBounds (countOf left) a b = .ok dice :=
            ⟨_, ofBounds_of_count hpos hn⟩
          obtain ⟨-, heq, hlow, hhigh⟩ := ofBounds_eq_ok_iff.mp hmade
          obtain ⟨count, low, high⟩ := dice
          obtain rfl : count = countOf left := heq
          rw [hmade]
          exact .dice hleft hcount hpos hn hsaid hlow hhigh

/-- **The dice clause is read as its grammar says**: for every text the reader gives what the clause
    means, and nothing else is meant by it. -/
theorem read_iff_means (clause : Text) (result : Except Fault Dice) :
    read clause = result ↔ Means clause result := by
  constructor
  · rintro rfl
    exact means_read clause
  · intro h
    cases h with
    | unwritten hfree => exact read_of_freeOf hfree
    | tooMany hleft hcount hmany =>
      rw [read_append_d hleft, countOf_iff.mpr hcount]
      exact if_pos hmany
    | malformed hleft hcount hn hnone =>
      rw [read_append_d hleft, countOf_iff.mpr hcount, bounds?_eq_none_iff.mpr hnone]
      exact if_neg (Nat.not_lt.mpr hn)
    | noDice hleft hcount hbounds =>
      rw [read_append_d hleft, countOf_iff.mpr hcount, bounds?_eq_some_iff.mpr hbounds]
      rfl
    | @dice left right n a b low high hleft hcount hpos hn hbounds hlow hhigh =>
      have hmade : ofBounds n a b = .ok ⟨n, low, high⟩ :=
        ofBounds_eq_ok_iff.mpr ⟨⟨hpos, hn⟩, rfl, hlow, hhigh⟩
      rw [read_append_d hleft, countOf_iff.mpr hcount, bounds?_eq_some_iff.mpr hbounds, ← hmade]
      exact if_neg (Nat.not_lt.mpr hn)

/-- Three dice, of which the grammar says the bounds in the other order: `3` says the count, `16` and
    `-7` say the bounds.  So the reader gives these dice, and the clause means nothing else. -/
theorem read_iff_means_threeDice :
    let clause : Text := "3d16:-7".toList
    let dice : Dice := ⟨3, -7, 16⟩
    Means clause (.ok dice) ∧ read clause = .ok dice ∧
    ∀ result, Means clause result → result = .ok dice := by
  intro clause dice
  have hcount : SaysNumber ['3'] 3 := ⟨_, .refl _, by decide, rfl⟩
  have hfirst : SaysInteger ['1', '6'] 16 :=
    ⟨_, .refl _, .bare (by decide) (by decide)⟩
  have hsecond : SaysInteger ['-', '7'] (-7) :=
    ⟨_, .refl _, @Spells.minus ['7'] (by decide) (by decide)⟩
  have hmeans : Means clause (.ok dice) :=
    .dice (by decide) (.written hcount) (by decide) (by decide) (.both hfirst hsecond) rfl rfl
  have hread : read clause = .ok dice := (read_iff_means clause _).mpr hmeans
  refine ⟨hmeans, hread, fun result h => ?_⟩
  rw [← (read_iff_means clause result).mpr h, hread]

/-- Leading zeros, gaps, a sign, and bounds in the other order. -/
example : read " 007 d 9 : -2".toList = .ok ⟨7, -2, 9⟩ := by decide +kernel

/-- The count is found too large before the bounds are found to be none. -/
example : read "10001d5x".toList = .error .tooManyDice := by decide +kernel

end DiceNotation.Dice
