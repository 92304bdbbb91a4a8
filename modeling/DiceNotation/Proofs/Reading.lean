/-
  Readings that can fail.

  A reader is a chain of readings, and the first that fails ends it.  So a chain that succeeds has
  succeeded at every link: `bind_eq_ok` and `map_eq_ok` give one link back at a time, and
  `bind_eq_error` says which of two links has failed.  For a list of pieces, all of them read as soon
  as each one does (`mapM_eq_ok`), and whatever was read comes from one of the pieces
  (`exists_of_mem_mapM`).  So it matters which pieces there are, and neither their order nor their
  number (`exists_mapM_of_mem_iff`).

  `InOrder` lifts a relation that says what ONE item reads to, to a list of items: all of their
  results, or the first fault.  If the relation is a function, so is the lifted one (`inOrder_iff`).
  The fault of a list is that of one of its items (`InOrder.exists_of_error`).
-/

namespace DiceNotation

variable {α β ε : Type} {x : Except ε α} {b : β}

theorem bind_eq_ok {f : α → Except ε β} : x >>= f = .ok b ↔ ∃ a, x = .ok a ∧ f a = .ok b := by
  cases x with
  | error e => exact ⟨fun h => (nomatch h), fun ⟨_, h, _⟩ => (nomatch h)⟩
  | ok a => exact ⟨fun h => ⟨a, rfl, h⟩, fun ⟨_, h, hb⟩ => Except.ok.inj h ▸ hb⟩

theorem bind_eq_error {f : α → Except ε β} {e : ε} :
    x >>= f = .error e ↔ x = .error e ∨ ∃ a, x = .ok a ∧ f a = .error e := by
  cases x with
  | error e' =>
    constructor
    · intro h
      obtain rfl : e' = e := Except.error.inj h
      exact Or.inl rfl
    · rintro (h | ⟨_, h, _⟩)
      · obtain rfl : e' = e := Except.error.inj h
        rfl
      · cases h
  | ok a =>
    constructor
    · intro h
      exact Or.inr ⟨a, rfl, h⟩
    · rintro (h | ⟨_, h, hfault⟩)
      · cases h
      · obtain rfl := Except.ok.inj h
        exact hfault

theorem map_eq_ok {f : α → β} : x.map f = .ok b ↔ ∃ a, x = .ok a ∧ f a = b := by
  cases x with
  | error e => exact ⟨fun h => (nomatch h), fun ⟨_, h, _⟩ => (nomatch h)⟩
  | ok a =>
    refine ⟨fun h => ⟨a, rfl, Except.ok.inj h⟩, fun ⟨_, h, hb⟩ => ?_⟩
    rw [h, ← hb]
    rfl

variable {f : α → Except ε β}

/-- If every piece reads, all of them do. -/
theorem mapM_eq_ok {g : α → β} {as : List α} (h : ∀ a ∈ as, f a = .ok (g a)) :
    as.mapM f = .ok (as.map g) := by
  induction as with
  | nil => rfl
  | cons a as ih =>
    rw [List.mapM_cons, h a List.mem_cons_self, ih fun b hb => h b (List.mem_cons_of_mem _ hb)]
    rfl

/-- What was written piece by piece reads piece by piece. -/
theorem mapM_map_eq_ok {γ : Type} {write : γ → α} {g : γ → β} {cs : List γ}
    (h : ∀ c ∈ cs, f (write c) = .ok (g c)) : (cs.map write).mapM f = .ok (cs.map g) := by
  rw [List.mapM_map]
  exact mapM_eq_ok h

/-- Readers that agree on every piece read the same. -/
theorem mapM_congr {g : α → Except ε β} {as : List α} (h : ∀ a ∈ as, f a = g a) :
    as.mapM f = as.mapM g := by
  induction as with
  | nil => rfl
  | cons a as ih =>
    rw [List.mapM_cons, List.mapM_cons, h a List.mem_cons_self,
      ih fun b hb => h b (List.mem_cons_of_mem _ hb)]

/-- Pieces that read to lists of their own, the first apart from the others. -/
theorem flatten_mapM_cons {f : α → Except ε (List β)} (a : α) (as : List α) :
    ((a :: as).mapM f).map List.flatten = (do
      let first ← f a
      let others ← as.mapM f
      return first ++ others.flatten) := by
  rw [List.mapM_cons]
  cases f a with
  | error e => rfl
  | ok first =>
    cases as.mapM f with
    | error e => rfl
    | ok others => rfl

/-- What is read comes from one of the pieces. -/
theorem exists_of_mem_mapM {as : List α} {bs : List β} (h : as.mapM f = .ok bs) (hb : b ∈ bs) :
    ∃ a ∈ as, f a = .ok b := by
  induction as generalizing bs with
  | nil =>
    obtain rfl : [] = bs := Except.ok.inj h
    exact absurd hb List.not_mem_nil
  | cons a as ih =>
    rw [List.mapM_cons] at h
    obtain ⟨first, hfirst, h⟩ := bind_eq_ok.mp h
    obtain ⟨others, hothers, h⟩ := bind_eq_ok.mp h
    obtain rfl : first :: others = bs := Except.ok.inj h
    rcases List.mem_cons.mp hb with rfl | hb
    · exact ⟨a, List.mem_cons_self, hfirst⟩
    · obtain ⟨x, hx, hfx⟩ := ih hothers hb
      exact ⟨x, List.mem_cons_of_mem _ hx, hfx⟩

/-- If each piece reads, all of them do. -/
theorem exists_mapM_eq_ok {as : List α} (h : ∀ a ∈ as, ∃ b, f a = .ok b) :
    ∃ bs, as.mapM f = .ok bs := by
  induction as with
  | nil => exact ⟨[], rfl⟩
  | cons a as ih =>
    obtain ⟨b, hb⟩ := h a List.mem_cons_self
    obtain ⟨bs, hbs⟩ := ih fun c hc => h c (List.mem_cons_of_mem _ hc)
    refine ⟨b :: bs, ?_⟩
    rw [List.mapM_cons, hb, hbs]
    rfl

/-- If all pieces read, each does, and what it reads to is among the results. -/
theorem exists_of_mem_of_mapM {as : List α} {bs : List β} (h : as.mapM f = .ok bs) {a : α}
    (ha : a ∈ as) : ∃ b ∈ bs, f a = .ok b := by
  induction as generalizing bs with
  | nil => exact absurd ha List.not_mem_nil
  | cons first as ih =>
    rw [List.mapM_cons] at h
    obtain ⟨b, hb, h⟩ := bind_eq_ok.mp h
    obtain ⟨others, hothers, h⟩ := bind_eq_ok.mp h
    obtain rfl : b :: others = bs := Except.ok.inj h
    rcases List.mem_cons.mp ha with rfl | ha
    · exact ⟨b, List.mem_cons_self, hb⟩
    · obtain ⟨x, hx, hfx⟩ := ih hothers ha
      exact ⟨x, List.mem_cons_of_mem _ hx, hfx⟩

/-- The results of two lists with the same pieces are among each other. -/
theorem mem_of_mapM {as others : List α} {bs found : List β} (h : as.mapM f = .ok bs)
    (hothers : others.mapM f = .ok found) (hmem : ∀ a ∈ others, a ∈ as) {b : β} (hb : b ∈ found) :
    b ∈ bs := by
  obtain ⟨a, ha, hread⟩ := exists_of_mem_mapM hothers hb
  obtain ⟨b', hb', hsame⟩ := exists_of_mem_of_mapM h (hmem a ha)
  obtain rfl : b = b' := Except.ok.inj (hread.symm.trans hsame)
  exact hb'

/-- **It matters only which pieces there are**, not in which order or how often: if the pieces of one
    list read, so do those of another with the same pieces, and to the same results. -/
theorem exists_mapM_of_mem_iff {as others : List α} {bs : List β} (h : as.mapM f = .ok bs)
    (hmem : ∀ a, a ∈ others ↔ a ∈ as) :
    ∃ found, others.mapM f = .ok found ∧ ∀ b, b ∈ found ↔ b ∈ bs := by
  obtain ⟨found, hfound⟩ : ∃ found, others.mapM f = .ok found := by
    apply exists_mapM_eq_ok
    intro a ha
    obtain ⟨b, -, hb⟩ := exists_of_mem_of_mapM h ((hmem a).mp ha)
    exact ⟨b, hb⟩
  refine ⟨found, hfound, fun b => ⟨?_, ?_⟩⟩
  · exact mem_of_mapM h hfound fun a => (hmem a).mp
  · exact mem_of_mapM hfound h fun a => (hmem a).mpr

/-! ## One item after another -/

/-- What a list of items reads to, if `R` says what each item reads to: all results in order, or the
    first fault. -/
inductive InOrder (R : α → Except ε β → Prop) : List α → Except ε (List β) → Prop
  | nil : InOrder R [] (.ok [])
  | fault {a : α} {as : List α} {e : ε} (h : R a (.error e)) : InOrder R (a :: as) (.error e)
  | later {a : α} {as : List α} {b : β} {e : ε} (h : R a (.ok b)) (hrest : InOrder R as (.error e)) :
      InOrder R (a :: as) (.error e)
  | cons {a : α} {as : List α} {b : β} {bs : List β} (h : R a (.ok b))
      (hrest : InOrder R as (.ok bs)) : InOrder R (a :: as) (.ok (b :: bs))

/-- **Reading item by item is reading in order.**  Induction on the items. -/
theorem inOrder_iff {R : α → Except ε β → Prop} {as : List α}
    (hR : ∀ a ∈ as, ∀ r, R a r ↔ f a = r) (r : Except ε (List β)) :
    InOrder R as r ↔ as.mapM f = r := by
  induction as generalizing r with
  | nil =>
    constructor
    · rintro ⟨⟩
      rfl
    · rintro rfl
      exact .nil
  | cons a as ih =>
    have hfirst := hR a List.mem_cons_self
    have hrest := ih fun b hb => hR b (List.mem_cons_of_mem _ hb)
    rw [List.mapM_cons]
    constructor
    · intro h
      cases h with
      | fault h => rw [(hfirst _).mp h]; rfl
      | later h hlater => rw [(hfirst _).mp h, (hrest _).mp hlater]; rfl
      | cons h hothers => rw [(hfirst _).mp h, (hrest _).mp hothers]; rfl
    · rintro rfl
      cases ha : f a with
      | error e => exact .fault ((hfirst _).mpr ha)
      | ok b =>
        cases has : as.mapM f with
        | error e => exact .later ((hfirst _).mpr ha) ((hrest _).mpr has)
        | ok bs => exact .cons ((hfirst _).mpr ha) ((hrest _).mpr has)

/-- A fault is that of one of the items. -/
theorem InOrder.exists_of_error {R : α → Except ε β → Prop} {as : List α} {r : Except ε (List β)}
    {e : ε} (h : InOrder R as r) (hr : r = .error e) : ∃ a ∈ as, R a (.error e) := by
  induction h with
  | nil => cases hr
  | fault h =>
    obtain rfl := Except.error.inj hr
    exact ⟨_, List.mem_cons_self, h⟩
  | later _ _ ih =>
    obtain ⟨a, ha, hfault⟩ := ih hr
    exact ⟨a, List.mem_cons_of_mem _ ha, hfault⟩
  | cons _ _ _ => cases hr

/-- If the pieces cannot be read, one of them cannot. -/
theorem exists_of_mapM_eq_error {as : List α} {e : ε} (h : as.mapM f = .error e) :
    ∃ a ∈ as, f a = .error e :=
  ((inOrder_iff (fun _ _ _ => Iff.rfl) _).mpr h).exists_of_error rfl

/-- If a fold fails, it fails at one of the items. -/
theorem exists_of_foldlM_eq_error {g : β → α → Except ε β} {as : List α} {e : ε}
    (h : as.foldlM g b = .error e) : ∃ a ∈ as, ∃ b', g b' a = .error e := by
  induction as generalizing b with
  | nil => cases h
  | cons a as ih =>
    rw [List.foldlM_cons] at h
    rcases bind_eq_error.mp h with hfirst | ⟨next, -, hothers⟩
    · exact ⟨a, List.mem_cons_self, b, hfirst⟩
    · obtain ⟨later, hlater, hfault⟩ := ih hothers
      exact ⟨later, List.mem_cons_of_mem _ hlater, hfault⟩

end DiceNotation
