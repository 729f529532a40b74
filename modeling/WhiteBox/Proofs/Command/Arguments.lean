import Mathlib.Data.List.TakeWhile
import WhiteBox.Command.Request
import WhiteBox.Proofs.Command.SeedText

/-!
# Arguments are read back

A number reads back from its decimal digits (`Command.number?_toString`), and options with
values read back in any number, whatever stands behind them (`Command.Grammar.readFrom_options`).
The value of an option may stand in an argument of its own if it does not look like an option.
Numbers do not, and neither does the text of a seed that is accepted
(`SeedText.isValue_of_parse`).
-/

namespace WhiteBox

/-! ## Texts of seeds -/

namespace SeedText

/-- The text of a seed begins with a blank or with a digit. -/
theorem Spells.ne_minus {text : List Char} {bytes : List Byte} (h : Spells text bytes)
    (nonempty : bytes ≠ []) (rest : List Char) : text ≠ '-' :: rest := by
  rintro rfl
  obtain ⟨front, digits, back, split, before, -, lower⟩ := h
  match front, digits with
  | c :: front, digits =>
    obtain ⟨rfl, -⟩ := List.cons_eq_cons.1 split
    exact absurd (before '-' List.mem_cons_self) (by decide)
  | [], c :: digits =>
    obtain ⟨rfl, -⟩ := List.cons_eq_cons.1 split
    exact absurd (Hex.isDigit_of_map_toLower lower '-' List.mem_cons_self) (by decide)
  | [], [] => exact nonempty (Hex.encode_inj.1 lower.symm)

/-- The text of a seed does not look like an option. -/
theorem isValue_of_parse {seed : String} {bytes : List Byte} (h : parse seed.toList = .ok bytes) :
    Command.isValue seed = true := by
  obtain ⟨nonempty, spells⟩ := parse_eq_ok_iff.1 h
  rw [Command.isValue]
  split
  · rfl
  · rename_i rest _ minus
    exact absurd minus (spells.ne_minus nonempty rest)
  · rfl

end SeedText

namespace Command

/-! ## Numbers -/

theorem le_of_isDigit {c : Char} (h : c.isDigit = true) : ('0' ≤ c && c ≤ '9') = true := by
  rw [Char.isDigit, Bool.and_eq_true, decide_eq_true_iff, decide_eq_true_iff] at h
  exact Bool.and_eq_true_iff.2 ⟨decide_eq_true h.1, decide_eq_true h.2⟩

/-- A number reads back from its digits. -/
theorem number?_toString {n : Nat} (fits : n < UInt64.size) : number? (toString n) = some n := by
  have text : (toString n).toList = Nat.toDigits 10 n := Nat.toList_repr
  have digit : ∀ c ∈ Nat.toDigits 10 n, ('0' ≤ c && c ≤ '9') = true := fun c h =>
    le_of_isDigit (Nat.isDigit_of_mem_toDigits (by decide) (by decide) h)
  have value : (Nat.toDigits 10 n).foldl (fun n c => 10 * n + (c.toNat - 0x30)) 0 = n :=
    Nat.ofDigitChars_eq_foldl.symm.trans Nat.ofDigitChars_ten_toDigits
  rw [number?, text]
  split
  · rename_i rest plus
    cases digit '+' (plus ▸ List.mem_cons_self)
  · rw [List.isEmpty_eq_false_iff.2 Nat.toDigits_ne_nil, List.all_eq_true.2 digit,
      if_neg (by decide)]
    show (if _ < UInt64.size then _ else _) = _
    rw [value, if_pos fits]

theorem isValue_toString (n : Nat) : isValue (toString n) = true := by
  have text : (toString n).toList = Nat.toDigits 10 n := Nat.toList_repr
  rw [isValue, text]
  split
  · rfl
  · rename_i rest _ minus
    have digit : '-' ∈ Nat.toDigits 10 n := minus ▸ List.mem_cons_self
    cases Nat.isDigit_of_mem_toDigits (by decide) (by decide) digit
  · rfl

/-! ## Options -/

/-- A name that ends where the value begins. -/
structure IsName (name : String) : Prop where
  nonempty : name ≠ ""
  no_equals : ∀ c ∈ name.toList, c ≠ '='

-- The characters of the name are tried, not all there are.
instance (name : String) : Decidable (IsName name) :=
  haveI := List.decidableBAll (· ≠ '=') name.toList
  decidable_of_iff (name ≠ "" ∧ ∀ c ∈ name.toList, c ≠ '=')
    ⟨fun h => ⟨h.1, h.2⟩, fun h => ⟨h.1, h.2⟩⟩

theorem longOption?_name {name : String} (h : IsName name) :
    longOption? ("--" ++ name) = some (name, none) := by
  have all : ∀ c ∈ name.toList, decide (c ≠ '=') = true := fun c hc =>
    decide_eq_true (h.no_equals c hc)
  have taken : name.toList.takeWhile (· ≠ '=') = name.toList :=
    List.takeWhile_eq_self_iff.2 all
  have left : name.toList.dropWhile (· ≠ '=') = [] := List.dropWhile_eq_nil_iff.2 all
  have text : ("--" ++ name).toList = '-' :: '-' :: name.toList := String.toList_append
  rw [longOption?, text]
  simp only [taken, left, String.ofList_toList]

theorem longOption?_attached {name : String} (h : IsName name) (value : String) :
    longOption? ("--" ++ name ++ "=" ++ value) = some (name, some value) := by
  have all : ∀ c ∈ name.toList, decide (c ≠ '=') = true := fun c hc =>
    decide_eq_true (h.no_equals c hc)
  have text : ("--" ++ name ++ "=" ++ value).toList =
      '-' :: '-' :: (name.toList ++ '=' :: value.toList) := by
    simp only [String.toList_append, List.append_assoc]
    rfl
  rw [longOption?, text]
  simp only [List.takeWhile_append_of_pos all, List.dropWhile_append_of_pos all,
    List.takeWhile_cons, List.dropWhile_cons, ne_eq, not_true, decide_false, Bool.false_eq_true,
    if_false, List.append_nil, String.ofList_toList]

/-- A grammar whose commands do not look like options. -/
def Grammar.Apart (g : Grammar) : Prop := ∀ c ∈ g.commands, longOption? c = none

instance (g : Grammar) : Decidable g.Apart :=
  inferInstanceAs (Decidable (∀ c ∈ g.commands, longOption? c = none))

/-- What an argument says to a command, if it is not the value of the option before it. -/
inductive Word where
  /-- The rest belongs to a subcommand. -/
  | command
  /-- There is no more to come. -/
  | finish
  /-- The switch is present. -/
  | switch (name : String)
  /-- The option has the value. -/
  | attached (name value : String)
  /-- The value of the option comes next. -/
  | waiting (name : String)
  /-- The command does not know it. -/
  | refused

namespace Grammar

/-- What an argument says. -/
def word (g : Grammar) (arg : String) : Word :=
  if arg ∈ g.commands then .command
  else if arg = "--" then .finish
  else
    match longOption? arg with
    | none => .refused
    | some (name, attached) =>
      match g.options.lookup name, attached with
      | some .switch, none => .switch name
      | some .value, some value => .attached name value
      | some .value, none => .waiting name
      | _, _ => .refused

variable {g : Grammar}

/-- The first argument decides how the others are read. -/
theorem readFrom_cons (m : Matched) (arg : String) (rest : List String) :
    g.readFrom m (arg :: rest) =
      match g.word arg with
      | .command => some ⟨m.switches, m.values, some (arg, rest)⟩
      | .finish => if rest.isEmpty then some m else none
      | .switch name => (m.addSwitch name).bind fun m => g.readFrom m rest
      | .attached name value => (m.addValue name value).bind fun m => g.readFrom m rest
      | .waiting name =>
        match rest with
        | [] => none
        | value :: rest =>
          if isValue value then (m.addValue name value).bind fun m => g.readFrom m rest else none
      | .refused => none := by
  rw [readFrom, word]
  by_cases command : arg ∈ g.commands
  · simp only [if_pos command]
  by_cases finish : arg = "--"
  · simp only [if_neg command, if_pos finish]
  simp only [if_neg command, if_neg finish]
  cases longOption? arg with
  | none => rfl
  | some option =>
    obtain ⟨name, attached⟩ := option
    dsimp only
    cases g.options.lookup name with
    | none => rfl
    | some kind =>
      cases kind with
      | switch =>
        cases attached with
        | none => cases added : m.addSwitch name <;> simp only [added] <;> rfl
        | some value => rfl
      | value =>
        cases attached with
        | none =>
          cases rest with
          | nil => rfl
          | cons value rest => cases added : m.addValue name value <;> simp only [added] <;> rfl
        | some value => cases added : m.addValue name value <;> simp only [added] <;> rfl

theorem word_name (apart : g.Apart) {name : String} (h : IsName name) :
    g.word ("--" ++ name) =
      match g.options.lookup name with
      | some .switch => .switch name
      | some .value => .waiting name
      | none => .refused := by
  have long := longOption?_name h
  have other : "--" ++ name ∉ g.commands := fun command => by
    cases long.symm.trans (apart _ command)
  have longer : "--" ++ name ≠ "--" := fun same => by
    rw [same] at long
    have empty := (show longOption? "--" = some ("", none) from rfl).symm.trans long
    exact h.nonempty (Prod.mk.inj (Option.some.inj empty)).1.symm
  rw [word, if_neg other, if_neg longer, long]
  dsimp only
  cases g.options.lookup name with
  | none => rfl
  | some kind => cases kind <;> rfl

theorem word_attached (apart : g.Apart) {name : String} (h : IsName name) (value : String) :
    g.word ("--" ++ name ++ "=" ++ value) =
      match g.options.lookup name with
      | some .value => .attached name value
      | _ => .refused := by
  have long := longOption?_attached h value
  have other : "--" ++ name ++ "=" ++ value ∉ g.commands := fun command => by
    cases long.symm.trans (apart _ command)
  have longer : "--" ++ name ++ "=" ++ value ≠ "--" := fun same => by
    rw [same] at long
    cases (show longOption? "--" = some ("", none) from rfl).symm.trans long
  rw [word, if_neg other, if_neg longer, long]
  dsimp only
  cases g.options.lookup name with
  | none => rfl
  | some kind => cases kind <;> rfl

/-- An option takes the argument behind it as its value. -/
theorem readFrom_value (apart : g.Apart) {m next : Matched} {name value : String} (h : IsName name)
    (kind : g.options.lookup name = some .value) (fits : isValue value = true)
    (add : m.addValue name value = some next) (rest : List String) :
    g.readFrom m (("--" ++ name) :: value :: rest) = g.readFrom next rest := by
  simp only [readFrom_cons, word_name apart h, kind, fits, add, if_true, Option.bind_some]

/-- An option may carry its value. -/
theorem readFrom_attached (apart : g.Apart) {m next : Matched} {name value : String}
    (h : IsName name) (kind : g.options.lookup name = some .value)
    (add : m.addValue name value = some next) (rest : List String) :
    g.readFrom m (("--" ++ name ++ "=" ++ value) :: rest) = g.readFrom next rest := by
  simp only [readFrom_cons, word_attached apart h, kind, add, Option.bind_some]

/-- A switch is added. -/
theorem readFrom_switch (apart : g.Apart) {m next : Matched} {name : String} (h : IsName name)
    (kind : g.options.lookup name = some .switch) (add : m.addSwitch name = some next)
    (rest : List String) : g.readFrom m (("--" ++ name) :: rest) = g.readFrom next rest := by
  simp only [readFrom_cons, word_name apart h, kind, add, Option.bind_some]

end Grammar

/-- The arguments that give options their values. -/
def optionArgs (options : List (String × String)) : List String :=
  options.flatMap fun o => ["--" ++ o.1, o.2]

theorem Matched.addValue_of_not_mem {m : Matched} {name : String}
    (new : name ∉ m.values.map Prod.fst) (value : String) :
    m.addValue name value = some ⟨m.switches, (name, value) :: m.values, m.command⟩ := by
  have none : m.values.lookup name = none := by
    refine List.lookup_eq_none_iff.2 fun o ho => ?_
    have other : name ≠ o.1 := fun same => new (same ▸ List.mem_map_of_mem ho)
    exact bne_iff_ne.2 other
  rw [addValue, none]
  rfl

/-- Options with values are added in their order, the last one in front. -/
theorem Grammar.readFrom_options {g : Grammar} (apart : g.Apart) {options : List (String × String)}
    (values : ∀ o ∈ options, isValue o.2 = true)
    (known : ∀ name ∈ options.map Prod.fst, IsName name ∧ g.options.lookup name = some .value)
    {m : Matched}
    (distinct : (options.map Prod.fst ++ m.values.map Prod.fst).Nodup) (rest : List String) :
    g.readFrom m (optionArgs options ++ rest) =
      g.readFrom ⟨m.switches, options.reverse ++ m.values, m.command⟩ rest := by
  induction options generalizing m with
  | nil => rfl
  | cons o options ih =>
    obtain ⟨name, value⟩ := o
    obtain ⟨⟨isName, kind⟩, known⟩ := List.forall_mem_cons.1 known
    obtain ⟨fits, values⟩ := List.forall_mem_cons.1 values
    obtain ⟨new, distinct⟩ := List.nodup_cons.1 distinct
    have absent : name ∉ m.values.map Prod.fst := fun h => new (List.mem_append_right _ h)
    have later : (options.map Prod.fst ++ name :: m.values.map Prod.fst).Nodup :=
      List.perm_middle.nodup_iff.2 (List.nodup_cons.2 ⟨new, distinct⟩)
    show g.readFrom m (("--" ++ name) :: value :: (optionArgs options ++ rest)) = _
    rw [Grammar.readFrom_value apart isName kind fits (Matched.addValue_of_not_mem absent value),
      ih values known (m := ⟨m.switches, (name, value) :: m.values, m.command⟩) later,
      List.reverse_cons, List.append_assoc]
    rfl

theorem lookup_valued {names : List String} {name : String} (h : name ∈ names) :
    (valued names).options.lookup name = some .value := by
  show (names.map (·, OptionKind.value)).lookup name = _
  induction names with
  | nil => cases h
  | cons other names ih =>
    rw [List.map_cons, List.lookup_cons]
    cases same : name == other with
    | true => rfl
    | false => exact ih ((List.mem_cons.1 h).resolve_left (ne_of_beq_false same))

/-- A command that knows only options with values reads all of them. -/
theorem read_valued {options : List (String × String)}
    (values : ∀ o ∈ options, isValue o.2 = true)
    (isName : ∀ name ∈ options.map Prod.fst, IsName name)
    (distinct : (options.map Prod.fst).Nodup) :
    (valued (options.map Prod.fst)).read (optionArgs options) =
      some ⟨[], options.reverse, none⟩ := by
  have nothing : (options.map Prod.fst ++ Matched.empty.values.map Prod.fst).Nodup := by
    simpa [Matched.empty] using distinct
  have read := Grammar.readFrom_options (g := valued (options.map Prod.fst)) nofun values
    (fun name h => ⟨isName name h, lookup_valued h⟩) nothing []
  rw [List.append_nil] at read
  rw [Grammar.read, read, Matched.empty, List.append_nil]
  rfl

end Command

end WhiteBox
