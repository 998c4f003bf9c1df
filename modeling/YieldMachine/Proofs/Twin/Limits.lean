import YieldMachine.Proofs.Twin.Run

/-!
# Limits only stop runs

A limit is asked before anything is done, and for nothing but to stop a run. So a run that
ends under some limits, and not because one was reached, ends the same way under all that
are no lower, whatever the words of the program are.

    Machine.runFrom_of_below   the same end under limits that are no lower
-/

namespace YieldMachine

/-! ## Definitions -/

/-- Is a limit the cause? -/
def Cause.IsLimit : Cause → Prop
  | .stackOverflow _ | .frameOverflow _ | .contextOverflow _ => True
  | _ => False

/-- No limit is higher than the other's; what is recorded may differ. -/
structure Limits.Below (l l' : Limits) : Prop where
  stack : l.maxStack ≤ l'.maxStack
  calls : l.maxCalls ≤ l'.maxCalls
  contexts : l.maxContexts ≤ l'.maxContexts

theorem Limits.Below.room {l l' : Limits} (h : l.Below l') : l.Room Cause.IsLimit l' :=
  ⟨.inr ⟨h.stack, trivial⟩, .inr ⟨h.calls, trivial⟩, .inr ⟨h.contexts, trivial⟩⟩

/-! ## Runs -/

/-- A run that ends without reaching a limit ends the same way under limits that are no
lower: with the same value, exit or fault, and it leaves the same memory and console. -/
theorem Machine.runFrom_of_below {l l' : Limits} (hbelow : l.Below l') (p : Program)
    (fuel start : Nat) (m : Machine) {outcome : Outcome}
    (h : Machine.runFrom p l fuel start m = some outcome)
    (hkept : ∀ fault, outcome.result = .error fault → ¬ fault.cause.IsLimit) :
    ∃ outcome', Machine.runFrom p l' fuel start m = some outcome' ∧
      outcome'.result = outcome.result ∧
      outcome'.exitCode = outcome.exitCode ∧
      outcome'.machine.globals = outcome.machine.globals ∧
      outcome'.machine.heap = outcome.machine.heap ∧
      outcome'.machine.console = outcome.machine.console := by
  obtain ⟨n', hrun, journal, rfl⟩ :=
    Machine.runFrom_tracks hbelow.room (.refl p) (.refl m) h hkept
  exact ⟨_, hrun, rfl, rfl, rfl, rfl, rfl⟩

/-- A call of a function that stores and returns an array. -/
def Program.oneCall : Program :=
  (Program.empty.compile default
    (.call (.function 0 1 (.assign (.own 0) (.array []))) [])).program

theorem Machine.runFrom_of_below_oneCall :
    ∃ outcome outcome' : Outcome,
      Limits.Below ⟨1, 1, 0, false⟩ ⟨8, 1, 2, true⟩ ∧
      Machine.runFrom .oneCall ⟨1, 1, 0, false⟩ 8 0 default = some outcome ∧
      outcome.result.toOption.isSome ∧
      Machine.runFrom .oneCall ⟨8, 1, 2, true⟩ 8 0 default = some outcome' ∧
      outcome'.result = outcome.result ∧
      outcome'.exitCode = outcome.exitCode ∧
      outcome'.machine.globals = outcome.machine.globals ∧
      outcome'.machine.heap = outcome.machine.heap ∧
      outcome'.machine.console = outcome.machine.console := by
  have hbelow : Limits.Below ⟨1, 1, 0, false⟩ ⟨8, 1, 2, true⟩ :=
    ⟨by decide, by decide, by decide⟩
  obtain ⟨outcome, hrun, hvalue⟩ : ∃ outcome : Outcome,
      Machine.runFrom .oneCall ⟨1, 1, 0, false⟩ 8 0 default = some outcome ∧
        outcome.result.toOption.isSome :=
    (Option.any_eq_true (fun outcome : Outcome => outcome.result.toOption.isSome) _).1
      (by decide +kernel)
  obtain ⟨outcome', hrun', hsame⟩ := Machine.runFrom_of_below hbelow .oneCall 8 0 default hrun
    fun fault hfault => by rw [hfault] at hvalue; cases hvalue
  exact ⟨outcome, outcome', hbelow, hrun, hvalue, hrun', hsame⟩

end YieldMachine
