import WhiteBox.Proofs.Command.Arguments

/-!
# Another seed in the same place

A `SeedPlace` is a list of arguments in which the value of the option for the seed is left open.
Whatever stands around it, filling in one value or another asks for the same, but for the seed
(`Command.ofArgs?_fill`).

The value of an option decides nothing about how the other arguments are read.  So the arguments
are followed up to the open place.  Either the option is read there, and the rest is read with
one seed as with another (`Command.Grammar.readFrom_reseed`); or the place is among the arguments
of a subcommand, none of which knows the option (`Command.wire?_fill`).
-/

namespace WhiteBox.Command

/-! ## Other seeds -/

theorem lookup_map_value (f : String → String → String) (values : List (String × String))
    (name : String) : (values.map fun o => (o.1, f o.1 o.2)).lookup name =
      (values.lookup name).map (f name) := by
  induction values with
  | nil => rfl
  | cons o values ih =>
    obtain ⟨other, value⟩ := o
    by_cases same : name = other
    · simp [same]
    · have differs : (name == other) = false := beq_false_of_ne same
      simp [List.lookup_cons, differs, ih]

namespace Matched

/-- The same with another seed. -/
def reseed (m : Matched) (seed : String) : Matched :=
  ⟨m.switches, m.values.map fun o => (o.1, if o.1 = "seed-hex" then seed else o.2), m.command⟩

/-- The option for the seed was read. -/
def HasSeed (m : Matched) : Prop := (m.value? "seed-hex").isSome = true

variable {m next : Matched} {seed name value : String}

theorem value?_reseed (name : String) : (m.reseed seed).value? name =
    (m.value? name).map fun value => if name = "seed-hex" then seed else value :=
  lookup_map_value (fun name value => if name = "seed-hex" then seed else value) m.values name

theorem value?_reseed_of_ne (h : name ≠ "seed-hex") :
    (m.reseed seed).value? name = m.value? name := by
  rw [value?_reseed]
  simp [h]

theorem numberOr?_reseed_of_ne (h : name ≠ "seed-hex") (absent : Nat) :
    (m.reseed seed).numberOr? name absent = m.numberOr? name absent := by
  rw [numberOr?, value?_reseed_of_ne h, numberOr?]

theorem addSwitch_reseed (name : String) :
    (m.reseed seed).addSwitch name = (m.addSwitch name).map (·.reseed seed) := by
  show (if name ∈ m.switches then none else some _) = _
  rw [addSwitch]
  split <;> rfl

theorem addValue_reseed (has : m.HasSeed) (name value : String) :
    (m.reseed seed).addValue name value = (m.addValue name value).map (·.reseed seed) := by
  have given : ((m.reseed seed).values.lookup name).isSome = (m.values.lookup name).isSome := by
    show ((m.reseed seed).value? name).isSome = _
    rw [value?_reseed, Option.isSome_map]
    rfl
  rw [addValue, addValue, given]
  by_cases taken : (m.values.lookup name).isSome = true
  · rw [if_pos taken, if_pos taken]
    rfl
  · have other : name ≠ "seed-hex" := by
      rintro rfl
      exact taken has
    rw [if_neg taken, if_neg taken]
    simp [reseed, other]

theorem HasSeed.addSwitch (has : m.HasSeed) (h : m.addSwitch name = some next) :
    next.HasSeed := by
  unfold Matched.addSwitch at h
  split at h
  · cases h
  · cases h
    exact has

theorem HasSeed.addValue (has : m.HasSeed) (h : m.addValue name value = some next) :
    next.HasSeed := by
  unfold Matched.addValue at h
  split at h
  · cases h
  · cases h
    show (((name, value) :: m.values).lookup "seed-hex").isSome = true
    rw [List.lookup_cons]
    split
    · rfl
    · exact has

end Matched

/-- With the option for the seed behind them, arguments are read with one seed as with another. -/
theorem Grammar.readFrom_reseed (g : Grammar) (seed : String) :
    ∀ (args : List String) {m : Matched}, m.HasSeed →
      g.readFrom (m.reseed seed) args = (g.readFrom m args).map (·.reseed seed)
  | [], m, _ => rfl
  | arg :: rest, m, has => by
    rw [readFrom_cons, readFrom_cons]
    cases g.word arg with
    | command => rfl
    | finish =>
      dsimp only
      split <;> rfl
    | switch name =>
      dsimp only
      rw [Matched.addSwitch_reseed]
      cases added : m.addSwitch name with
      | none => rfl
      | some next => exact readFrom_reseed g seed rest (has.addSwitch added)
    | attached name value =>
      dsimp only
      rw [Matched.addValue_reseed has]
      cases added : m.addValue name value with
      | none => rfl
      | some next => exact readFrom_reseed g seed rest (has.addValue added)
    | waiting name =>
      cases rest with
      | nil => rfl
      | cons value rest =>
        dsimp only
        split
        · rw [Matched.addValue_reseed has]
          cases added : m.addValue name value with
          | none => rfl
          | some next => exact readFrom_reseed g seed rest (has.addValue added)
        · rfl
    | refused => rfl

/-! ## An open place -/

/-- How the option for the seed carries its value. -/
inductive SeedForm where
  /-- In an argument of its own. -/
  | separate
  /-- Behind an equals sign. -/
  | attached

/-- The arguments that give a seed. -/
def SeedForm.args : SeedForm → String → List String
  | separate, seed => ["--seed-hex", seed]
  | attached, seed => ["--seed-hex=" ++ seed]

/-- Arguments in which the seed is left open. -/
structure SeedPlace where
  /-- What stands before it. -/
  before : List String
  /-- How it is given. -/
  form : SeedForm
  /-- What stands behind it. -/
  after : List String

namespace SeedPlace

/-- The arguments with a seed in their place. -/
def fill (place : SeedPlace) (seed : String) : List String :=
  place.before ++ place.form.args seed ++ place.after

end SeedPlace

/-- Arguments with an open place read as the same with one seed as with another, or the place is
among the arguments of a subcommand. -/
def ReadsOpen (g : Grammar) (read : String → Option Matched) : Prop :=
  (∃ x : Option Matched, ∀ seed, isValue seed = true → read seed = x.map (·.reseed seed)) ∨
    ∃ switches values, ∃ command ∈ g.commands, ∃ place : SeedPlace, ∀ seed,
      read seed = some ⟨switches, values, some (command, place.fill seed)⟩

theorem Matched.addValue_seed (m : Matched) (seed : String) :
    m.addValue "seed-hex" seed = (m.addValue "seed-hex" "").map (·.reseed seed) := by
  rw [Matched.addValue, Matched.addValue]
  by_cases taken : (m.values.lookup "seed-hex").isSome = true
  · rw [if_pos taken, if_pos taken]
    rfl
  · have none : m.values.lookup "seed-hex" = none := Option.not_isSome_iff_eq_none.1 taken
    have others : m.values.map (fun o => (o.1, if o.1 = "seed-hex" then seed else o.2)) =
        m.values := by
      refine (List.map_congr_left fun o member => ?_).trans (List.map_id m.values)
      have other : o.1 ≠ "seed-hex" := fun same =>
        absurd (List.lookup_eq_none_iff.1 none o member) (by simp [same])
      rw [if_neg other]
      rfl
    rw [if_neg taken, if_neg taken]
    simp [reseed, others]

namespace Grammar

variable {g : Grammar} {form : SeedForm}

theorem mem_of_word_eq_command {arg : String} (h : g.word arg = .command) : arg ∈ g.commands := by
  unfold word at h
  split at h
  · assumption
  · split at h
    · cases h
    · split at h
      · cases h
      · split at h <;> cases h

theorem readFrom_seed (apart : g.Apart) (knows : g.options.lookup "seed-hex" = some .value)
    (form : SeedForm) (after : List String) (m : Matched) {seed : String}
    (fits : isValue seed = true) :
    g.readFrom m (form.args seed ++ after) =
      (m.addValue "seed-hex" seed).bind fun m => g.readFrom m after := by
  have name : IsName "seed-hex" := by decide
  cases form with
  | separate =>
    have word := word_name apart name
    rw [knows] at word
    show g.readFrom m (("--" ++ "seed-hex") :: seed :: after) = _
    simp only [readFrom_cons, word, fits, if_true]
  | attached =>
    have word := word_attached apart name seed
    rw [knows] at word
    show g.readFrom m (("--" ++ "seed-hex" ++ "=" ++ seed) :: after) = _
    simp only [readFrom_cons, word]

/-- Up to the open place the arguments are read without the seed.  They are refused, or the rest
belongs to a subcommand, or the option for the seed comes next. -/
theorem readFrom_fill {P : (String → Option Matched) → Prop} {after : List String}
    (refused : P fun _ => none)
    (command : ∀ arg ∈ g.commands, ∀ switches values (place : SeedPlace),
      P fun seed => some ⟨switches, values, some (arg, place.fill seed)⟩)
    (option : ∀ m : Matched, P fun seed => g.readFrom m (form.args seed ++ after)) :
    ∀ (before : List String) (m : Matched),
      P fun seed => g.readFrom m (SeedPlace.fill ⟨before, form, after⟩ seed)
  | [], m => option m
  | arg :: before, m => by
    show P fun seed => g.readFrom m (arg :: SeedPlace.fill ⟨before, form, after⟩ seed)
    simp only [readFrom_cons]
    cases said : g.word arg with
    | command => exact command arg (mem_of_word_eq_command said) _ _ ⟨before, form, after⟩
    | finish =>
      have more (seed : String) : (SeedPlace.fill ⟨before, form, after⟩ seed).isEmpty = false := by
        cases before <;> cases form <;> rfl
      simp only [more]
      exact refused
    | switch name =>
      dsimp only
      cases m.addSwitch name with
      | none => exact refused
      | some next => exact readFrom_fill refused command option before next
    | attached name value =>
      dsimp only
      cases m.addValue name value with
      | none => exact refused
      | some next => exact readFrom_fill refused command option before next
    | waiting name =>
      cases before with
      | nil =>
        -- The option for the seed is not taken for the value that is waited for.
        cases form with
        | separate => exact refused
        | attached =>
          have other (seed : String) : isValue ("--seed-hex=" ++ seed) = false := by
            rw [isValue]
            simp
          show P fun seed => if isValue ("--seed-hex=" ++ seed) then _ else none
          simp only [other]
          exact refused
      | cons value before =>
        show P fun seed => if isValue value then (m.addValue name value).bind fun m =>
          g.readFrom m (SeedPlace.fill ⟨before, form, after⟩ seed) else none
        split
        · cases m.addValue name value with
          | none => exact refused
          | some next => exact readFrom_fill refused command option before next
        · exact refused
    | refused => exact refused

theorem readFrom_open (apart : g.Apart) (knows : g.options.lookup "seed-hex" = some .value)
    (place : SeedPlace) (m : Matched) : ReadsOpen g fun seed => g.readFrom m (place.fill seed) := by
  obtain ⟨before, form, after⟩ := place
  refine readFrom_fill (.inl ⟨none, fun _ _ => rfl⟩) ?_ (fun m => ?_) before m
  · intro arg known switches values place
    exact .inr ⟨switches, values, arg, known, place, fun seed => rfl⟩
  · refine .inl ⟨(m.addValue "seed-hex" "").bind fun m => g.readFrom m after, fun seed fits => ?_⟩
    dsimp only
    rw [readFrom_seed apart knows form after m fits, m.addValue_seed seed]
    cases added : m.addValue "seed-hex" "" with
    | none => rfl
    | some next =>
      have has : next.HasSeed := by
        unfold Matched.addValue at added
        split at added
        · cases added
        · cases added
          rfl
      exact g.readFrom_reseed seed after has

theorem read_open (apart : g.Apart) (plain : g.commands = [])
    (knows : g.options.lookup "seed-hex" = some .value) (place : SeedPlace) :
    ∃ x : Option Matched, ∀ seed, isValue seed = true →
      g.read (place.fill seed) = x.map (·.reseed seed) := by
  obtain opens | ⟨_, _, command, known, -⟩ := readFrom_open apart knows place .empty
  · exact opens
  · rw [plain] at known
    cases known

/-- A command without subcommands refuses an option that it does not know, wherever it stands. -/
theorem readFrom_unknown (apart : g.Apart) (plain : g.commands = [])
    (unknown : g.options.lookup "seed-hex" = none) (place : SeedPlace) (m : Matched)
    (seed : String) : g.readFrom m (place.fill seed) = none := by
  obtain ⟨before, form, after⟩ := place
  have none_command (arg : String) (known : arg ∈ g.commands) : False := by
    rw [plain] at known
    cases known
  refine readFrom_fill (P := fun read => ∀ seed, read seed = none) (fun _ => rfl)
    (fun arg known => (none_command arg known).elim) (fun m seed => ?_) before m seed
  have name : IsName "seed-hex" := by decide
  cases form with
  | separate =>
    have word := word_name apart name
    rw [unknown] at word
    show g.readFrom m (("--" ++ "seed-hex") :: seed :: after) = _
    simp only [readFrom_cons, word]
  | attached =>
    have word := word_attached apart name seed
    rw [unknown] at word
    show g.readFrom m (("--" ++ "seed-hex" ++ "=" ++ seed) :: after) = _
    simp only [readFrom_cons, word]

end Grammar

/-! ## Requests -/

/-- The same request for another seed. -/
def Request.withSeed (seed : String) : Request → Request
  | .encoding _ json wire => .encoding seed json wire
  | .table _ kind round position json => .table seed kind round position json
  | .check (some _) samples => .check (some seed) samples
  | request => request

variable {seed other : String}

/-- Arguments that read as the same but for the seed ask for the same but for the seed. -/
theorem bind_fill {g : Grammar} {place : SeedPlace} {x : Option Matched}
    (reads : ∀ seed, isValue seed = true → g.read (place.fill seed) = x.map (·.reseed seed))
    (fits : isValue seed = true) (fits' : isValue other = true) {ask : Matched → Option Request}
    (same : ∀ m : Matched, ask (m.reseed other) = (ask (m.reseed seed)).map (·.withSeed other)) :
    (g.read (place.fill other) >>= ask) =
      (g.read (place.fill seed) >>= ask).map (·.withSeed other) := by
  rw [reads seed fits, reads other fits']
  cases x with
  | none => rfl
  | some m => exact same m

/-- No wire takes a seed. -/
theorem wire?_fill (command : String) (place : SeedPlace) (seed : String) :
    wire? command (place.fill seed) = none := by
  have refused (names : List String) (unknown : (valued names).options.lookup "seed-hex" = none) :
      (valued names).read (place.fill seed) = none :=
    Grammar.readFrom_unknown (g := valued names) nofun rfl unknown place .empty seed
  have mask := refused ["position", "sub-position", "surface"] rfl
  have table := refused ["round", "position", "sub-position"] rfl
  have xor := refused ["round", "position", "gate", "surface"] rfl
  have round := refused ["round", "position", "surface"] rfl
  simp [wire?, mask, table, xor, round]

theorem encoding?_fill (fits : isValue seed = true) (fits' : isValue other = true)
    (place : SeedPlace) :
    encoding? (place.fill other) = (encoding? (place.fill seed)).map (·.withSeed other) := by
  have opens := Grammar.readFrom_open (g := encodingGrammar) (by decide) rfl place .empty
  rcases opens with ⟨x, reads⟩ | ⟨switches, values, command, -, inner, reads⟩
  · refine bind_fill (g := encodingGrammar) reads fits fits' fun m => ?_
    obtain ⟨switches, values, command⟩ := m
    cases command with
    | none => rfl
    | some command =>
      obtain ⟨command, args⟩ := command
      show (wire? command args >>= _) = Option.map _ (wire? command args >>= _)
      cases wire? command args with
      | none => rfl
      | some wire =>
        show (Matched.value? (Matched.reseed _ _) "seed-hex" >>= _) =
          Option.map _ (Matched.value? (Matched.reseed _ _) "seed-hex" >>= _)
        rw [Matched.value?_reseed, Matched.value?_reseed]
        cases Matched.value? _ "seed-hex" <;> rfl
  · show (encodingGrammar.read _ >>= _) = Option.map _ (encodingGrammar.read _ >>= _)
    have read : encodingGrammar.read (place.fill seed) = _ := reads seed
    have read' : encodingGrammar.read (place.fill other) = _ := reads other
    rw [read, read']
    show (wire? command (inner.fill other) >>= _) =
      Option.map _ (wire? command (inner.fill seed) >>= _)
    rw [wire?_fill, wire?_fill]
    rfl

theorem table?_fill (fits : isValue seed = true) (fits' : isValue other = true)
    (place : SeedPlace) :
    table? (place.fill other) = (table? (place.fill seed)).map (·.withSeed other) := by
  obtain ⟨x, reads⟩ := Grammar.read_open (g := tableGrammar) (by decide) rfl rfl place
  refine bind_fill (g := tableGrammar) reads fits fits' fun m => ?_
  simp only [Option.bind_eq_bind,
    Matched.value?_reseed_of_ne (show "kind" ≠ "seed-hex" by decide),
    Matched.numberOr?_reseed_of_ne (show "round" ≠ "seed-hex" by decide),
    Matched.numberOr?_reseed_of_ne (show "position" ≠ "seed-hex" by decide)]
  cases (m.value? "kind").bind tableKind? with
  | none => rfl
  | some kind =>
    rw [Matched.value?_reseed, Matched.value?_reseed]
    cases m.value? "seed-hex" with
    | none => rfl
    | some _ => cases m.numberOr? "round" 0 <;> cases m.numberOr? "position" 0 <;> rfl

theorem check?_fill (fits : isValue seed = true) (fits' : isValue other = true)
    (place : SeedPlace) :
    check? (place.fill other) = (check? (place.fill seed)).map (·.withSeed other) := by
  obtain ⟨x, reads⟩ :=
    Grammar.read_open (g := valued ["seed-hex", "samples"]) nofun rfl rfl place
  refine bind_fill (g := valued ["seed-hex", "samples"]) reads fits fits' fun m => ?_
  simp only [Option.bind_eq_bind,
    Matched.numberOr?_reseed_of_ne (show "samples" ≠ "seed-hex" by decide)]
  rw [Matched.value?_reseed, Matched.value?_reseed]
  cases m.value? "seed-hex" <;> cases m.numberOr? "samples" 16 <;> rfl

/-- Another seed in the same place asks for the same, but for the seed. -/
theorem ofArgs?_fill (fits : isValue seed = true) (fits' : isValue other = true) (command : String)
    (place : SeedPlace) :
    Request.ofArgs? (command :: place.fill other) =
      (Request.ofArgs? (command :: place.fill seed)).map (·.withSeed other) := by
  simp only [Request.ofArgs?]
  split
  · rfl
  split
  · exact encoding?_fill fits fits' place
  split
  · exact table?_fill fits fits' place
  split
  · exact check?_fill fits fits' place
  · rfl

end WhiteBox.Command
