import WhiteBox.Table

/-!
# Constructions that succeed, and constructions that check numbers

Everything that can fail is built in `Except`, step by step: one after the other, one for
each entry of a vector, or one for each member of a list.  If all steps succeed, so does the
construction.

Most constructions fail only because a number is too large.  Such a construction `Checks` a list
of numbers: it fails with the first one that exceeds its quantity, and succeeds if there is none.
So two constructions that check the same numbers fail together (`Checks.sameFailure`).
-/

namespace WhiteBox

variable {ε α β : Type}

theorem ok_bind (a : α) (f : α → Except ε β) : (Except.ok a >>= f) = f a := rfl

theorem bind_eq_ok_iff {x : Except ε α} {f : α → Except ε β} {b : β} :
    (x >>= f) = .ok b ↔ ∃ a, x = .ok a ∧ f a = .ok b := by
  cases x with
  | error e => exact ⟨nofun, nofun⟩
  | ok a =>
    constructor
    · intro h
      exact ⟨a, rfl, h⟩
    · rintro ⟨_, h, found⟩
      cases h
      exact found

theorem map_eq_ok_iff {x : Except ε α} {f : α → β} {b : β} :
    x.map f = .ok b ↔ ∃ a, x = .ok a ∧ f a = b := by
  cases x with
  | error e => exact ⟨nofun, nofun⟩
  | ok a =>
    constructor
    · intro h
      exact ⟨a, rfl, Except.ok.inj h⟩
    · rintro ⟨_, h, rfl⟩
      cases h
      rfl

theorem ofFnM_eq_ok {k : Nat} {f : Fin k → Except ε α} {g : Fin k → α} (h : ∀ i, f i = .ok (g i)) :
    Vector.ofFnM f = .ok (Vector.ofFn g) :=
  (congrArg Vector.ofFnM (funext h)).trans Vector.ofFnM_pure

/-- A step that may fail, and nothing else, fails as a plain construction does. -/
theorem bind_exceptT (x : Except ε α) (f : α → Except ε β) :
    (bind (m := ExceptT ε Id) x f : Except ε β) = x >>= f := by
  cases x <;> rfl

theorem ofFnM_exceptT {k : Nat} (f : Fin k → Except ε α) :
    (Vector.ofFnM (m := ExceptT ε Id) f : Except ε (Vector α k)) = Vector.ofFnM f := by
  induction k with
  | zero =>
    exact (Vector.ofFnM_zero (m := ExceptT ε Id)).trans (Vector.ofFnM_zero (m := Except ε)).symm
  | succ k ih =>
    have inner := Vector.ofFnM_succ (m := Except ε) (f := f)
    rw [← ih] at inner
    refine (Vector.ofFnM_succ (m := ExceptT ε Id)).trans ((bind_exceptT _ _).trans ?_)
    refine Eq.trans ?_ inner.symm
    exact congrArg _ (funext fun entries => bind_exceptT _ _)

theorem forM_eq_ok {l : List α} {f : α → Except ε Unit} (h : ∀ a ∈ l, f a = .ok ()) :
    l.forM f = .ok () := by
  induction l with
  | nil => rfl
  | cons a rest ih =>
    show (f a >>= fun _ => rest.forM f) = .ok ()
    rw [h a List.mem_cons_self, ok_bind]
    exact ih fun b hb => h b (List.mem_cons_of_mem a hb)

namespace Coordinate

variable {q : Quantity}

theorem ofNat_of_le {value : Nat} (h : value ≤ q.max) : ofNat q value = .ok ⟨value, h⟩ :=
  ofNat_eq_ok_iff.2 rfl

/-- The coordinate of an index that is known to be in range. -/
def ofFin (q : Quantity) {k : Nat} (i : Fin k) (fits : k ≤ q.max + 1 := by decide) :
    Coordinate q :=
  ⟨i.val, Nat.le_of_lt_succ (Nat.lt_of_lt_of_le i.isLt fits)⟩

/-- The refusal of the first number that exceeds its quantity. -/
def refusal? (numbers : List (Quantity × Nat)) : Option BuildError :=
  (numbers.find? fun c => c.1.max < c.2).map fun c => .outOfRange c.1 c.2

theorem refusal?_eq_none_iff {numbers : List (Quantity × Nat)} :
    refusal? numbers = none ↔ ∀ c ∈ numbers, c.2 ≤ c.1.max := by
  simp [refusal?]

theorem refusal?_append (numbers others : List (Quantity × Nat)) :
    refusal? (numbers ++ others) = (refusal? numbers).or (refusal? others) := by
  simp only [refusal?, List.find?_append, Option.map_or]

end Coordinate

/-! ## Constructions that check numbers -/

/-- The construction fails with the first number that exceeds its quantity.  If there is none,
it succeeds with a good value. -/
def Checks (numbers : List (Quantity × Nat)) (x : Except BuildError α) (good : α → Prop) : Prop :=
  match Coordinate.refusal? numbers with
  | some cause => x = .error cause
  | none => ∃ a, x = .ok a ∧ good a

/-- Both constructions succeed, or both fail for the same cause. -/
def SameFailure (x : Except ε α) (y : Except ε β) : Prop :=
  (∃ a b, x = .ok a ∧ y = .ok b) ∨ ∃ cause, x = .error cause ∧ y = .error cause

namespace Checks

variable {numbers others : List (Quantity × Nat)} {x : Except BuildError α} {good : α → Prop}

theorem of_ok {a : α} (built : x = .ok a) (h : good a) : Checks [] x good := ⟨a, built, h⟩

theorem eq_error (h : Checks numbers x good) {cause : BuildError}
    (refused : Coordinate.refusal? numbers = some cause) : x = .error cause := by
  rwa [Checks, refused] at h

theorem exists_ok (h : Checks numbers x good) (accepted : Coordinate.refusal? numbers = none) :
    ∃ a, x = .ok a ∧ good a := by
  rwa [Checks, accepted] at h

/-- Numbers are checked by the first construction, and then others by the second one, which runs
only if the former are in range. -/
theorem bind {f : α → Except BuildError β} {good' : β → Prop} (first : Checks numbers x good)
    (second : (∀ c ∈ numbers, c.2 ≤ c.1.max) → ∀ a, good a → Checks others (f a) good') :
    Checks (numbers ++ others) (x >>= f) good' := by
  unfold Checks
  rw [Coordinate.refusal?_append]
  cases refusal : Coordinate.refusal? numbers with
  | some cause =>
    rw [first.eq_error refusal]
    rfl
  | none =>
    obtain ⟨a, rfl, h⟩ := first.exists_ok refusal
    exact second (Coordinate.refusal?_eq_none_iff.1 refusal) a h

/-- What comes of a construction is changed without a check. -/
theorem bind_pure {f : α → β} {good' : β → Prop} (first : Checks numbers x good)
    (h : ∀ a, good a → good' (f a)) : Checks numbers (x >>= fun a => pure (f a)) good' := by
  have both := first.bind fun _ a ha => of_ok (x := pure (f a)) rfl (h a ha)
  rwa [List.append_nil] at both

theorem ofNat (q : Quantity) (n : Nat) :
    Checks [(q, n)] (Coordinate.ofNat q n) fun c => c.val = n := by
  by_cases h : n ≤ q.max
  · have none : Coordinate.refusal? [(q, n)] = none :=
      Coordinate.refusal?_eq_none_iff.2 (List.forall_mem_singleton.2 h)
    simp only [Checks, none]
    exact ⟨_, Coordinate.ofNat_of_le h, rfl⟩
  · have some : Coordinate.refusal? [(q, n)] = some (.outOfRange q n) := by
      simp [Coordinate.refusal?, Nat.lt_of_not_le h]
    simp only [Checks, some]
    exact Coordinate.ofNat_eq_error_iff.2 ⟨Nat.lt_of_not_le h, rfl⟩

/-- A coordinate is built first. -/
theorem cons {q : Quantity} {n : Nat} {f : Coordinate q → Except BuildError α}
    (rest : ∀ c : Coordinate q, c.val = n → Checks numbers (f c) good) :
    Checks ((q, n) :: numbers) (Coordinate.ofNat q n >>= f) good :=
  (ofNat q n).bind fun _ c h => rest c h

/-- Each entry of a vector checks one number; an entry is built only if all numbers before it are
in range. -/
theorem ofFnM {k : Nat} {f : Fin k → Except BuildError α} {number : Fin k → Quantity × Nat}
    (each : ∀ i, (∀ j < i, (number j).2 ≤ (number j).1.max) →
      Checks [number i] (f i) fun _ => True) :
    Checks ((List.finRange k).map number) (Vector.ofFnM f) fun _ => True := by
  induction k with
  | zero => exact of_ok Vector.ofFnM_zero trivial
  | succ k ih =>
    rw [List.finRange_succ_last, List.map_append, List.map_map, Vector.ofFnM_succ]
    refine (ih fun i before => each i.castSucc fun j h => ?_).bind fun inRange entries _ => ?_
    · exact before ⟨j, Nat.lt_trans h i.isLt⟩ h
    · have before (j : Fin (k + 1)) (h : j < Fin.last k) : (number j).2 ≤ (number j).1.max :=
        inRange _ (List.mem_map.2 ⟨⟨j, h⟩, List.mem_finRange _, rfl⟩)
      exact (each (Fin.last k) before).bind_pure fun _ _ => trivial

theorem sameFailure {y : Except BuildError β} {good' : β → Prop} (hx : Checks numbers x good)
    (hy : Checks numbers y good') : SameFailure x y := by
  cases refusal : Coordinate.refusal? numbers with
  | some cause => exact .inr ⟨cause, hx.eq_error refusal, hy.eq_error refusal⟩
  | none =>
    obtain ⟨a, ha, -⟩ := hx.exists_ok refusal
    obtain ⟨b, hb, -⟩ := hy.exists_ok refusal
    exact .inl ⟨a, b, ha, hb⟩

end Checks

theorem MaskTable.build_eq_ok {mask : Matrix 128} {position : Nat}
    (inRange : position ≤ Quantity.maskTablePosition.max) :
    build mask position = .ok ⟨mask, ⟨position, inRange⟩⟩ := by
  rw [build, Coordinate.ofNat_of_le inRange, ok_bind]
  rfl

theorem MixingInverseTable.build_eq_ok {inverse : Matrix 32} {row : Nat}
    (inRange : row ≤ Quantity.mixingBijectionRow.max) :
    build inverse row = .ok ⟨inverse, ⟨row, inRange⟩⟩ := by
  rw [build, Coordinate.ofNat_of_le inRange, ok_bind]
  rfl

theorem MixingInverseTable.ofMixing_eq_ok {mixing inverse : Matrix 32}
    (h : mixing.invert? = some inverse) {row : Nat}
    (inRange : row ≤ Quantity.mixingBijectionRow.max) :
    ofMixing mixing row = .ok ⟨inverse, ⟨row, inRange⟩⟩ := by
  rw [ofMixing, h]
  exact build_eq_ok inRange

end WhiteBox
