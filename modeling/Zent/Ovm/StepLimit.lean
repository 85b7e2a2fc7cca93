import Mathlib.Data.UInt

/-!
# The step limit

The loop of `Interpreter.Run` (`omega/ovm/interpreter.go`), with the nested loops of `EXEC` and
what `OVM.Call` saves for them. Every round takes one off `StepLimit` and then asks whether it is
below zero. `StepLimit` is a `uint32`: it wraps, and the question is always answered with no.

The instructions are a parameter (`Table`). The loop is written once for any `Meter`; `stepLimit`
is the one of the source and `unmetered` does not count at all.
-/

namespace Zent.Ovm.Interpreter

variable {T M : Type}

/-- How an instruction returns: where `pc` is, or the error. -/
inductive Returned (M : Type) where
  | done (pc : Int) (m : M)
  | failed (msg : String) (m : M)

/-- What an instruction does. `EXEC`, and `SELFDESTRUCT` with a script, run other code first. -/
inductive Executed (M : Type) where
  | returned (r : Returned M)
  | calls (m : M)

/-- An entry of the jump table. -/
structure Operation (M : Type) where
  execute : Int → M → Executed M
  /-- the rest of the instruction, after `Call` with this error -/
  resume : Int → M → Option String → Returned M
  valid : Bool := true
  writes : Bool := false
  reverts : Bool := false
  halts : Bool := false
  jumps : Bool := false

/-- What the loop reads: the instructions, and of the rest of the machine `M` the code, the
restrictions of the frame and of the contract, the flag `stop`, and where the library ends. -/
structure Table (M : Type) where
  getOp : M → Int → UInt8
  jumpTable : UInt8 → Operation M
  empty : M → Bool
  restricted : M → Bool
  noWrite : M → Bool
  stop : M → Bool
  clearStop : M → M
  end_ : M → Int

/-- A way to count instructions; `none` stops the code. -/
structure Meter (T : Type) where
  charge : T → Option T

/-- `StepLimit--`, and then `StepLimit < 0` on the main net. -/
def stepLimit (mainNet : Bool) : Meter UInt32 where
  charge l := if l - 1 < 0 ∧ mainNet then none else some (l - 1)

def unmetered : Meter Unit where
  charge := some

/-- An instruction that waits for the code it has called. -/
structure Call (T M : Type) where
  pc : Int
  operation : Operation M
  /-- `steplimit` of `OVM.Call` -/
  saved : T

structure State (T M : Type) where
  pc : Int
  mem : M
  limit : T
  calls : List (Call T M)
  /-- how many instructions have been executed -/
  executed : Nat

variable (table : Table M)

/-- Where the loop goes after an instruction: to the next one, or out. -/
def finish (operation : Operation M) : Returned M → M × (Int ⊕ Option String)
  | .failed msg m => (m, .inr (some msg))
  | .done pc m =>
    if operation.reverts then (m, .inr (some "evm: execution reverted"))
    else if table.stop m then (table.clearStop m, .inr none)
    else if operation.halts then (m, .inr none)
    else if operation.jumps then (m, .inl pc)
    else if pc + 1 < table.end_ m then (m, .inl (pc + 1))
    else (m, .inr (some "Instruction out of range."))

/-- The loop goes on, or the code returns to the instruction that has called it. After an error
`OVM.Call` puts the limit back. -/
def settle (table : Table M) (executed : Nat) :
    List (Call T M) → T → M × (Int ⊕ Option String) → Except (Option String × Nat) (State T M)
  | calls, limit, (m, .inl pc) => .ok ⟨pc, m, limit, calls, executed⟩
  | [], _, (_, .inr err) => .error (err, executed)
  | c :: calls, limit, (m, .inr err) =>
    settle table executed calls (if err.isSome then c.saved else limit)
      (finish table c.operation (c.operation.resume c.pc m err))

/-- The round of the loop without the counting. The code goes on, with the number of instructions
executed, or other code is called. -/
def perform (pc : Int) (m : M) :
    Nat × M × (Int ⊕ Option String) ⊕ Operation M × M :=
  let op := table.getOp m pc
  let operation := table.jumpTable op
  if !operation.valid then
    .inl (0, m, .inr (some ("invalid opcode 0x" ++ String.ofList (Nat.toDigits 16 op.toNat))))
  else if table.restricted m && operation.writes then
    .inl (0, m, .inr (some "evm: write protection"))
  else if table.noWrite m && operation.writes then
    .inl (0, m, .inr (some "State modification is not allowed"))
  else
    match operation.execute pc m with
    | .returned r => .inl (1, finish table operation r)
    | .calls m =>
      -- without code `Run` returns at once
      if table.empty m then .inl (1, finish table operation (operation.resume pc m none))
      else .inr (operation, m)

/-- One round of the loop. The error is how the outermost code returns. -/
def round (meter : Meter T) (s : State T M) :
    Except (Option String × Nat) (State T M) :=
  match meter.charge s.limit with
  | none => settle table s.executed s.calls s.limit (s.mem, .inr (some "Exceeded operation limit"))
  | some limit =>
    match perform table s.pc s.mem with
    | .inl (n, x) => settle table (s.executed + n) s.calls limit x
    | .inr (operation, m) =>
      .ok ⟨0, m, limit, ⟨s.pc, operation, limit⟩ :: s.calls, s.executed + 1⟩

def run (table : Table M) (meter : Meter T) : Nat → State T M → Option (Option String × Nat)
  | 0, _ => none
  | fuel + 1, s =>
    match round table meter s with
    | .error e => some e
    | .ok s => run table meter fuel s

/-- `Run` on the machine `m`, with code. -/
def start (m : M) (limit : T) : State T M := ⟨0, m, limit, [], 0⟩

/-- The code returns, and has executed at most `n` instructions, those of nested code included. -/
def Bounded (meter : Meter T) (m : M) (limit : T) (n : Nat) : Prop :=
  ∃ fuel err executed, run table meter fuel (start m limit) = some (err, executed) ∧ executed ≤ n

/-! ## The limit has no effect -/

def Call.erase (c : Call T M) : Call Unit M := ⟨c.pc, c.operation, ()⟩

def State.erase (s : State T M) : State Unit M :=
  ⟨s.pc, s.mem, (), s.calls.map Call.erase, s.executed⟩

theorem charge_stepLimit (mainNet : Bool) (l : UInt32) :
    (stepLimit mainNet).charge l = some (l - 1) := by
  have hlow : ¬ (l - 1 < 0) := UInt32.not_lt_zero
  simp only [stepLimit, hlow, false_and, if_false]

theorem settle_erase (executed : Nat) (calls : List (Call T M)) (limit : T)
    (x : M × (Int ⊕ Option String)) :
    settle table executed (calls.map Call.erase) () x =
      (settle table executed calls limit x).map State.erase := by
  induction calls generalizing limit x with
  | nil => obtain ⟨m, pc | err⟩ := x <;> rfl
  | cons c calls ih =>
    obtain ⟨m, pc | err⟩ := x
    · rfl
    · exact ih _ _

theorem round_erase (mainNet : Bool) (s : State UInt32 M) :
    round table unmetered s.erase = (round table (stepLimit mainNet) s).map State.erase := by
  simp only [round, charge_stepLimit, unmetered, State.erase]
  cases perform table s.pc s.mem with
  | inl x => exact settle_erase ..
  | inr x => rfl

/-- **The step limit changes nothing.** On every machine, with every limit and for every number of
rounds, the loop does what it does without one. -/
theorem run_erase (mainNet : Bool) (fuel : Nat) (s : State UInt32 M) :
    run table (stepLimit mainNet) fuel s = run table unmetered fuel s.erase := by
  induction fuel generalizing s with
  | zero => rfl
  | succ fuel ih =>
    rw [run, run, round_erase table mainNet]
    cases round table (stepLimit mainNet) s with
    | error e => rfl
    | ok s' => exact ih s'

/-- **Execution is bounded by the limit exactly where it ends in time without any.** For every table
of instructions: no code is stopped by its limit. -/
theorem bounded_iff (table : Table M) (mainNet : Bool) (m : M) (limit : UInt32) :
    Bounded table (stepLimit mainNet) m limit limit.toNat ↔
      Bounded table unmetered m () limit.toNat := by
  simp only [Bounded, run_erase]
  rfl

/-! ## A jump to itself -/

/-- `opIf` with its operands evaluated, in code from `address` to `end_`. -/
def opIf (address end_ : Int) (cond offset : Int32) : Operation Unit where
  execute pc _ :=
    let target := if cond = 0 then pc + 1 else pc + offset.toInt
    if target < address ∨ target ≥ end_ then .returned (.failed "Out of range jump" ())
    else .returned (.done target ())
  resume pc _ _ := .done pc ()
  jumps := true

/-- The code `IF 1,0,` -/
def selfJump : Table Unit where
  getOp _ pc := if pc = 0 then 0x4b else 0
  jumpTable op := if op = 0x4b then opIf 0 1 1 0 else { opIf 0 1 1 0 with valid := false }
  empty _ := false
  restricted _ := false
  noWrite _ := false
  stop _ := false
  clearStop m := m
  end_ _ := 1

theorem run_selfJump (fuel : Nat) : ∀ s : State UInt32 Unit, s.pc = 0 →
    run selfJump (stepLimit true) fuel s = none := by
  induction fuel with
  | zero => exact fun _ _ => rfl
  | succ fuel ih =>
    intro s hs
    have hround : round selfJump (stepLimit true) s =
        .ok ⟨0, s.mem, s.limit - 1, s.calls, s.executed + 1⟩ := by
      simp [round, charge_stepLimit, hs, perform, selfJump, opIf, finish, settle]
    rw [run, hround]
    exact ih _ rfl

/-- One instruction that jumps to itself is executed for ever, whatever the limit. -/
theorem selfJump_not_bounded :
    ¬ Bounded selfJump (stepLimit true) () 1000000 (1000000 : UInt32).toNat := by
  rintro ⟨fuel, err, executed, hrun, -⟩
  rw [run_selfJump fuel _ rfl] at hrun
  cases hrun

end Zent.Ovm.Interpreter
