/-
  Text by its bytes.

  A program that keeps a text in UTF-8 walks it by byte, and a byte in the middle of a character is no
  place to cut.  Here a text has only characters, so its bytes come in as lengths: `String.utf8Len` of
  what stands in front.

  1. A number is a boundary of a text if so many bytes of it are UTF-8 again (`IsBoundary`).  This is
     so just for the lengths of its beginnings (`isBoundary_iff`).
  2. `slice? start stop` is what stands between two bytes, and there is none unless both are boundaries
     and in order (`Sliceable`, `slice?_isSome_iff`).  If there is one, the text is the slice with
     something in front and something behind (`slice?_eq_some_iff`).
  3. `findByte?` is where a character begins, and in front of it stands what `upTo` gives
     (`slice?_findByte?`).  `charIndices` has each character with its place.
-/
import DiceNotation.Proofs.Text.Cutting
import Mathlib.Data.String.Basic

namespace DiceNotation.Text

open String (utf8Len)

variable {p : Char → Bool} {s front piece back : Text} {n start stop : Nat}

theorem utf8Len_concat (s : Text) (c : Char) : utf8Len (s ++ [c]) = utf8Len s + c.utf8Size := by
  rw [String.utf8Len_append, String.utf8Len_cons, String.utf8Len_nil, Nat.zero_add]

/-! ## Boundaries -/

/-- The first `n` bytes of the text are those of a text. -/
def IsBoundary (s : Text) (n : Nat) : Prop :=
  String.Pos.Raw.IsValid (String.ofList s) ⟨n⟩

/-- **The boundaries are the lengths of the beginnings.** -/
theorem isBoundary_iff : IsBoundary s n ↔ ∃ front back, front ++ back = s ∧ utf8Len front = n := by
  unfold IsBoundary
  rw [String.Pos.Raw.isValid_ofList]
  constructor
  · rintro ⟨i, hi⟩
    refine ⟨s.take i, s.drop i, List.take_append_drop i s, ?_⟩
    rw [← String.utf8ByteSize_ofList]
    exact hi.symm
  · rintro ⟨front, back, rfl, rfl⟩
    refine ⟨front.length, ?_⟩
    rw [List.take_left, String.utf8ByteSize_ofList]

theorem isBoundary_append : IsBoundary (front ++ back) (utf8Len front) :=
  isBoundary_iff.mpr ⟨front, back, rfl, rfl⟩

theorem IsBoundary.le (h : IsBoundary s n) : n ≤ utf8Len s := by
  obtain ⟨front, back, rfl, rfl⟩ := isBoundary_iff.mp h
  rw [String.utf8Len_append]
  exact Nat.le_add_right _ _

/-- A slice of the text can start and stop here. -/
structure Sliceable (s : Text) (start stop : Nat) : Prop where
  inOrder : start ≤ stop
  inText : stop ≤ utf8Len s
  starts : IsBoundary s start
  stops : IsBoundary s stop

/-- Two beginnings of one text are as long as their bytes say. -/
theorem prefix_of_utf8Len_le {a b : Text} (ha : a <+: s) (hb : b <+: s)
    (h : utf8Len a ≤ utf8Len b) : a <+: b := by
  rcases List.prefix_or_prefix_of_prefix ha hb with hab | ⟨more, rfl⟩
  · exact hab
  · -- what `a` has more is of no bytes, and so of no characters
    rw [String.utf8Len_append] at h
    obtain rfl : more = [] := String.utf8Len_eq_zero.mp (by omega)
    exact ⟨[], by rw [List.append_nil, List.append_nil]⟩

/-! ## Slices -/

/-- The text in two, the first of `n` bytes, unless it is shorter or a character stands across. -/
def cutAtByte? : Nat → Text → Option (Text × Text)
  | 0, s => some ([], s)
  | _ + 1, [] => none
  | n + 1, c :: s =>
    if c.utf8Size ≤ n + 1 then
      (cutAtByte? (n + 1 - c.utf8Size) s).map fun (front, back) => (c :: front, back)
    else none

/-- What stands between two bytes, unless it is not made of characters. -/
def slice? (s : Text) (start stop : Nat) : Option Text :=
  if start ≤ stop then do
    let (_, back) ← s.cutAtByte? start
    let (piece, _) ← back.cutAtByte? (stop - start)
    return piece
  else none

theorem cutAtByte?_append : cutAtByte? (utf8Len front) (front ++ back) = some (front, back) := by
  induction front with
  | nil => cases back <;> rfl
  | cons c front ih =>
    have hpos := c.utf8Size_pos
    obtain ⟨m, hm⟩ : ∃ m, utf8Len (c :: front) = m + 1 :=
      ⟨utf8Len (c :: front) - 1, by rw [String.utf8Len_cons]; omega⟩
    have hrest : m + 1 - c.utf8Size = utf8Len front := by rw [← hm, String.utf8Len_cons]; omega
    have hle : c.utf8Size ≤ m + 1 := by rw [← hm, String.utf8Len_cons]; omega
    rw [hm, List.cons_append, cutAtByte?, if_pos hle, hrest, ih]
    rfl

theorem cutAtByte?_eq_some_iff :
    cutAtByte? n s = some (front, back) ↔ front ++ back = s ∧ utf8Len front = n := by
  constructor
  · intro h
    fun_induction cutAtByte? n s generalizing front with
    | case1 s =>
      obtain ⟨rfl, rfl⟩ := Prod.mk.inj (Option.some.inj h)
      exact ⟨rfl, rfl⟩
    | case2 => exact nomatch h
    | case3 n c s hle ih =>
      obtain ⟨⟨rest, other⟩, hrest, heq⟩ := Option.map_eq_some_iff.mp h
      obtain ⟨rfl, rfl⟩ := Prod.mk.inj heq
      obtain ⟨rfl, hlen⟩ := ih hrest
      refine ⟨rfl, ?_⟩
      rw [String.utf8Len_cons, hlen]
      omega
    | case4 => exact nomatch h
  · rintro ⟨rfl, rfl⟩
    exact cutAtByte?_append

/-- **A slice is a part of the text**, with so many bytes in front of it and of its end. -/
theorem slice?_eq_some_iff :
    slice? s start stop = some piece ↔
      ∃ front back, front ++ piece ++ back = s ∧ utf8Len front = start ∧
        utf8Len (front ++ piece) = stop := by
  unfold slice?
  constructor
  · intro h
    split at h
    · rename_i hle
      obtain ⟨⟨front, others⟩, hfront, h⟩ := Option.bind_eq_some_iff.mp h
      obtain ⟨⟨found, back⟩, hback, h⟩ := Option.bind_eq_some_iff.mp h
      obtain rfl : found = piece := Option.some.inj h
      obtain ⟨rfl, rfl⟩ := cutAtByte?_eq_some_iff.mp hfront
      obtain ⟨rfl, hlen⟩ := cutAtByte?_eq_some_iff.mp hback
      refine ⟨front, back, List.append_assoc _ _ _, rfl, ?_⟩
      rw [String.utf8Len_append, hlen]
      omega
    · exact nomatch h
  · rintro ⟨front, back, rfl, rfl, rfl⟩
    rw [String.utf8Len_append, if_pos (Nat.le_add_right _ _), Nat.add_sub_cancel_left,
      List.append_assoc, cutAtByte?_append]
    show (cutAtByte? (utf8Len piece) (piece ++ back) >>= fun x => some x.1) = some piece
    rw [cutAtByte?_append]
    rfl

theorem slice?_append :
    slice? (front ++ piece ++ back) (utf8Len front) (utf8Len (front ++ piece)) = some piece :=
  slice?_eq_some_iff.mpr ⟨front, back, rfl, rfl, rfl⟩

/-- **There is a slice just between boundaries in order.** -/
theorem slice?_isSome_iff : (slice? s start stop).isSome = true ↔ Sliceable s start stop := by
  rw [Option.isSome_iff_exists]
  constructor
  · rintro ⟨piece, h⟩
    obtain ⟨front, back, rfl, rfl, rfl⟩ := slice?_eq_some_iff.mp h
    have hstops : IsBoundary (front ++ piece ++ back) (utf8Len (front ++ piece)) := isBoundary_append
    refine ⟨?_, hstops.le, ?_, hstops⟩
    · rw [String.utf8Len_append]
      exact Nat.le_add_right _ _
    · rw [List.append_assoc]
      exact isBoundary_append
  · rintro ⟨hle, -, hstarts, hstops⟩
    obtain ⟨front, others, hfront, rfl⟩ := isBoundary_iff.mp hstarts
    obtain ⟨whole, back, hwhole, rfl⟩ := isBoundary_iff.mp hstops
    obtain ⟨piece, rfl⟩ := prefix_of_utf8Len_le ⟨others, hfront⟩ ⟨back, hwhole⟩ hle
    exact ⟨piece, slice?_eq_some_iff.mpr ⟨front, back, hwhole, rfl, rfl⟩⟩

instance : Decidable (Sliceable s start stop) :=
  decidable_of_iff _ slice?_isSome_iff

-- the first character is of two bytes
example : Sliceable "é+".toList 0 2 ∧ ¬ Sliceable "é+".toList 1 3 := by decide

/-! ## Places of characters -/

/-- The byte at which the first character begins that `p` accepts. -/
def findByte? (p : Char → Bool) : Text → Option Nat
  | [] => none
  | c :: s => if p c then some 0 else (findByte? p s).map (c.utf8Size + ·)

/-- The characters, each with the byte at which it begins; the first begins at byte `n`. -/
def charIndicesFrom (n : Nat) : Text → List (Nat × Char)
  | [] => []
  | c :: s => (n, c) :: charIndicesFrom (n + c.utf8Size) s

/-- The characters, each with the byte at which it begins. -/
def charIndices (s : Text) : List (Nat × Char) :=
  charIndicesFrom 0 s

theorem findByte?_eq (p : Char → Bool) (s : Text) :
    findByte? p s = if s.any p then some (utf8Len (s.upTo p)) else none := by
  induction s with
  | nil => rfl
  | cons c s ih =>
    rw [findByte?, upTo, List.any_cons]
    cases hc : p c with
    | true => rw [List.takeWhile_cons_of_neg (by rw [hc]; exact Bool.false_ne_true)]; rfl
    | false =>
      rw [List.takeWhile_cons_of_pos (by rw [hc]; rfl), ih, Bool.false_or, if_neg Bool.false_ne_true]
      cases s.any p with
      | true => exact congrArg some (Nat.add_comm _ _)
      | false => rfl

/-- **In front of the first character that `p` accepts stands what `upTo` gives.** -/
theorem slice?_findByte? (h : findByte? p s = some n) : slice? s 0 n = some (s.upTo p) := by
  rw [findByte?_eq] at h
  split at h
  · obtain rfl := Option.some.inj h
    exact slice?_eq_some_iff.mpr ⟨[], s.onward p, upTo_append_onward p s, rfl, rfl⟩
  · exact nomatch h

theorem upTo_of_findByte? (h : findByte? p s = none) : s.upTo p = s := by
  rw [findByte?_eq] at h
  split at h
  · exact nomatch h
  · rename_i hnone
    refine upTo_of_freeOf fun c hc => Bool.eq_false_iff.mpr ?_
    exact List.any_eq_false.mp (Bool.eq_false_iff.mpr hnone) c hc

end DiceNotation.Text
