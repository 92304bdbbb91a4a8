/-
  Readings that come out alike.

  A fault quotes the text that it blames, so two texts that mean the same can be refused in different
  words.  `Fault.unquoted` leaves the quotation out: what remains is the rule that was broken, and the
  directive that broke it.

  Two readings are `Alike R` if both succeed, with results that `R` relates, or both fail with the
  same fault but for the quotation.  A reader is built from a few links, and each of them keeps
  alike what is alike: one reading after another (`Alike.bind`), a reading of every piece
  (`Alike.mapM`), a run over the pieces with something in hand (`Alike.foldlM`).  The pieces are
  related one by one, in order, by `List.Forall₂`.
-/
import DiceNotation.Fault
import Mathlib.Data.List.Forall2

namespace DiceNotation

/-- The fault without the text that it quotes. -/
def Fault.unquoted : Fault → Fault
  | badArgument directive _ => badArgument directive []
  | badNumber _ => badNumber []
  | badTarget _ => badTarget []
  | fault => fault

variable {α β γ δ : Type} {R : α → β → Prop} {S : γ → δ → Prop}

/-- Two readings that both succeed, with related results, or both fail by the same rule. -/
inductive Alike (R : α → β → Prop) : Except Fault α → Except Fault β → Prop
  | ok {a : α} {b : β} (h : R a b) : Alike R (.ok a) (.ok b)
  | error {fault fault' : Fault} (h : fault.unquoted = fault'.unquoted) :
    Alike R (.error fault) (.error fault')

namespace Alike

variable {x : Except Fault α} {y : Except Fault β}

/-- What does not differ is alike. -/
theorem refl (x : Except Fault α) : Alike Eq x x := by
  cases x with
  | error fault => exact error rfl
  | ok a => exact ok rfl

theorem exists_cases (h : Alike R x y) :
    (∃ a b, x = .ok a ∧ y = .ok b ∧ R a b) ∨
    ∃ fault fault', x = .error fault ∧ y = .error fault' ∧ fault.unquoted = fault'.unquoted := by
  cases h with
  | ok hab => exact Or.inl ⟨_, _, rfl, rfl, hab⟩
  | error hfault => exact Or.inr ⟨_, _, rfl, rfl, hfault⟩

/-- One reading after another. -/
theorem bind {f : α → Except Fault γ} {g : β → Except Fault δ} (h : Alike R x y)
    (hfg : ∀ a b, R a b → Alike S (f a) (g b)) : Alike S (x >>= f) (y >>= g) := by
  cases h with
  | error hfault => exact error hfault
  | ok hab => exact hfg _ _ hab

/-- One reading after another that gave the same. -/
theorem bind_eq {x y : Except Fault α} {f : α → Except Fault γ} {g : α → Except Fault δ}
    (h : Alike Eq x y) (hfg : ∀ a, Alike S (f a) (g a)) : Alike S (x >>= f) (y >>= g) := by
  refine h.bind fun a b hab => ?_
  subst hab
  exact hfg a

theorem map {f : α → γ} {g : β → δ} (h : Alike R x y) (hfg : ∀ a b, R a b → S (f a) (g b)) :
    Alike S (x.map f) (y.map g) := by
  cases h with
  | error hfault => exact error hfault
  | ok hab => exact ok (hfg _ _ hab)

variable {as : List α} {bs : List β}

/-- A reading of every piece; induction on the pieces. -/
theorem mapM {f : α → Except Fault γ} {g : β → Except Fault δ} (h : List.Forall₂ R as bs)
    (hfg : ∀ a b, R a b → Alike S (f a) (g b)) :
    Alike (List.Forall₂ S) (as.mapM f) (bs.mapM g) := by
  induction h with
  | nil => exact ok List.Forall₂.nil
  | cons hab _ ih =>
    rw [List.mapM_cons, List.mapM_cons]
    refine bind (hfg _ _ hab) fun c d hcd => ?_
    exact bind ih fun cs ds hrest => ok (List.Forall₂.cons hcd hrest)

/-- Related pieces that read to the same list of results. -/
theorem mapM_eq {f : α → Except Fault γ} {g : β → Except Fault γ} (h : List.Forall₂ R as bs)
    (hfg : ∀ a b, R a b → Alike Eq (f a) (g b)) : Alike Eq (as.mapM f) (bs.mapM g) := by
  have hall := mapM h hfg
  rwa [List.forall₂_eq_eq_eq] at hall

/-- A run over the pieces, each of which changes what is in hand. -/
theorem foldlM {f : γ → α → Except Fault γ} {g : γ → β → Except Fault γ}
    (h : List.Forall₂ R as bs) (hfg : ∀ c a b, R a b → Alike Eq (f c a) (g c b)) (start : γ) :
    Alike Eq (as.foldlM f start) (bs.foldlM g start) := by
  induction h generalizing start with
  | nil => exact refl _
  | cons hab _ ih =>
    rw [List.foldlM_cons, List.foldlM_cons]
    exact bind_eq (hfg start _ _ hab) fun c => ih c

end Alike

end DiceNotation
