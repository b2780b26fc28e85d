import Whitespace.Proofs.Machine.Control
import Whitespace.Proofs.Machine.Output

/-!
# Faults

An instruction fails where it cannot go on, with some of its effects already there.
`Instruction.Fails` lists the ways in which this comes about and what each of them
leaves, and there are no others (`Instruction.execute_eq_fault_iff`).  What they have
in common is that a fault takes values off the data stack at most, and touches the
streams only if its instruction is there to do so (`Instruction.Faulted`).  The last
flush of a run changes none of this, so it is what a run leaves that is stopped by
a fault (`Machine.faulted_of_run`).
-/

namespace Whitespace

/-- The number of values that an operation takes off the data stack. -/
def Operation.operands : Operation → Nat
  | dup | discard | retrieve | outChar | outNum => 1
  | swap | arith _ | store => 2
  | ret | exit | readChar | readNum => 0

/-- The number of values that a branch takes off the data stack. -/
def Branch.operands : Branch → Nat
  | call | jump => 0
  | jumpIfZero | jumpIfNegative => 1

/-- The number of values that an instruction takes off the data stack. -/
def Instruction.operands : Instruction Target → Nat
  | push _ | mark _ => 0
  | branch kind _ => kind.operands
  | op o => o.operands

/-! ## Reading -/

/-- Whether a read can come to the fault once the output has been flushed. -/
def Fault.isOfReading : Fault → Bool
  | inputExhausted | notANumber _ | stream .notUtf8 | stream .cutOff | stream .readFailed => true
  | _ => false

/-- What a fault leaves of the data stack of a state. -/
def Fault.Leaves (s : State) (stack : List Int64) : Fault → Prop
  | stackUnderflow => stack = []
  | callStackUnderflow => s.calls = [] ∧ stack = s.stack
  -- the divisor and the dividend are gone
  | divisionByZero => ∃ l, s.stack = 0 :: l :: stack
  -- the value that was to be written is gone
  | stream .writeFailed => ∃ v, s.stack = v :: stack
  | stream .flushFailed | stream .readFailed | stream .cutOff | stream .notUtf8
  | inputExhausted | notANumber _ => stack = s.stack

namespace Fault

variable {s : State} {stack : List Int64} {f : Fault}

theorem leaves_of_isOfReading (h : f.isOfReading = true) : f.Leaves s s.stack := by
  unfold isOfReading at h
  split at h <;> first | rfl | cases h

theorem Leaves.suffix (h : f.Leaves s stack) : stack <:+ s.stack := by
  unfold Leaves at h
  split at h
  · rw [h]
    exact List.nil_suffix
  · exact ⟨[], h.2⟩
  · obtain ⟨l, hl⟩ := h
    exact ⟨[0, l], hl.symm⟩
  · obtain ⟨v, hv⟩ := h
    exact ⟨[v], hv.symm⟩
  all_goals exact ⟨[], h⟩

end Fault

namespace Input

variable {i : Input} {f : Fault}

theorem isOfReading_readChar (h : i.readChar.1 = .error f) : f.isOfReading = true := by
  unfold readChar at h
  grind [Fault.isOfReading]

theorem isOfReading_readNum (h : i.readNum.1 = .error f) : f.isOfReading = true := by
  unfold readNum at h
  grind [Fault.isOfReading]

end Input

theorem Operation.isOfReading_source {o : Operation} {source : Input → Except Fault Int64 × Input}
    {input : Input} {f : Fault} (ho : o.source? = some source)
    (h : (source input).1 = .error f) : f.isOfReading = true := by
  cases o <;> cases ho
  case readChar =>
    have hchar : input.readChar.1.map valueOfChar = .error f := h
    cases hread : input.readChar.1 with
    | error g =>
      rw [hread] at hchar
      cases hchar
      exact Input.isOfReading_readChar hread
    | ok c =>
      rw [hread] at hchar
      cases hchar
  case readNum => exact Input.isOfReading_readNum h

theorem Instruction.isOfReading_source {i : Instruction Target}
    {source : Input → Except Fault Int64 × Input} {input : Input} {f : Fault}
    (hi : i.source? = some source) (h : (source input).1 = .error f) : f.isOfReading = true := by
  cases i with
  | push _ | mark _ | branch _ _ => cases hi
  | op o => exact Operation.isOfReading_source hi h

/-! ## Steps that fail -/

theorem Output.eq_writeFailed {o : Output} {bytes : List UInt8} {f : StreamFault}
    (h : (o.write bytes).1 = .error f) : f = .writeFailed := by
  obtain ⟨written, flushes, writeLimit, flushLimit⟩ := o
  cases writeLimit with
  | none => cases h
  | some limit =>
    simp only [write] at h
    split at h <;> cases h
    rfl

theorem Arithmetic.eval?_eq_none_iff {op : Arithmetic} {l r : Int64} :
    op.eval? l r = none ↔ (op = .div ∨ op = .mod) ∧ r = 0 := by
  cases op <;> simp [eval?]

namespace State

variable {s t : State} {f : Fault}

theorem pop_of_nil (h : s.stack = []) (k : Int64 → State → Step) :
    s.pop k = .fault .stackUnderflow s := by
  rw [pop, h]

theorem pop_of_short (h : s.stack.length < 1) (k : Int64 → State → Step) :
    s.pop k = .fault .stackUnderflow { s with stack := [] } := by
  have hnil : s.stack = [] := List.length_eq_zero_iff.1 (Nat.lt_one_iff.1 h)
  rw [pop_of_nil hnil, ← hnil]

/-- Of two values that are wanted, the one that there is gets lost. -/
theorem pop_pop_of_short (h : s.stack.length < 2) (k : Int64 → Int64 → State → Step) :
    (s.pop fun a u => u.pop (k a)) = .fault .stackUnderflow { s with stack := [] } := by
  cases hstack : s.stack with
  | nil => exact pop_of_short (by rw [hstack]; exact Nat.one_pos) _
  | cons a stack =>
    rw [hstack, List.length_cons] at h
    rw [pop_of_cons hstack]
    exact pop_of_short (Nat.lt_of_succ_lt_succ h) _

theorem write_eq_fault_iff {bytes : List UInt8} :
    s.write bytes = .fault f t ↔ f = .stream .writeFailed ∧
      (s.output.write bytes).1 = .error .writeFailed ∧
      t = { s with output := (s.output.write bytes).2 } := by
  rw [write_eq]
  rcases hwrite : s.output.write bytes with ⟨g | _, output⟩
  · obtain rfl : g = .writeFailed := Output.eq_writeFailed (by rw [hwrite])
    simp [eq_comm]
  · simp

theorem read_eq_fault_iff {source : Input → Except Fault Int64 × Input} :
    s.read source id = .fault f t ↔
      (source s.input).1 = .error f ∧ t = { s with input := (source s.input).2 } := by
  unfold read
  rcases source s.input with ⟨_ | a, input⟩
  · simp [eq_comm]
  · simp

end State

namespace Instruction

/-- The ways in which an instruction fails, with what they leave.  The program
counter of the state is already past it. -/
inductive Fails (s : State) : Instruction Target → Fault → State → Prop
  /-- There are too few values, and those that there were are gone. -/
  | operand {i : Instruction Target} (h : s.stack.length < i.operands) :
    Fails s i .stackUnderflow { s with stack := [] }
  /-- There is no place to go back to. -/
  | ret (h : s.calls = []) : Fails s (.op .ret) .callStackUnderflow s
  /-- The divisor is zero, and it is gone with the dividend. -/
  | divisor {op : Arithmetic} {l : Int64} {stack : List Int64} (hop : op = .div ∨ op = .mod)
    (h : s.stack = 0 :: l :: stack) :
    Fails s (.op (.arith op)) .divisionByZero { s with stack }
  /-- The writer does not take all, and the value is gone. -/
  | write {i : Instruction Target} {bytes : List UInt8} (hi : i.written? s = some bytes)
    (h : (s.output.write bytes).1 = .error .writeFailed) :
    Fails s i (.stream .writeFailed)
      { s with stack := s.stack.tail, output := (s.output.write bytes).2 }
  /-- The output cannot be flushed, and nothing is read. -/
  | flush {i : Instruction Target} (hi : i.isRead = true) (h : ¬ s.output.canFlush = true) :
    Fails s i (.stream .flushFailed) s
  /-- The input does not yield a value, and what was looked at is gone. -/
  | read {i : Instruction Target} {source : Input → Except Fault Int64 × Input} {f : Fault}
    (hi : i.source? = some source) (hcan : s.output.canFlush = true)
    (h : (source s.input).1 = .error f) :
    Fails s i f { s with input := (source s.input).2, output := s.output.flush.2 }

variable {i : Instruction Target} {s t : State} {f : Fault}

/-- An instruction that lacks its first value fails. -/
theorem Fails.of_pop {k : Int64 → State → Step} (hi : 1 ≤ i.operands) (h : s.pop k = .fault f t)
    (hk : ∀ a stack, s.stack = a :: stack → k a { s with stack } = .fault f t → Fails s i f t) :
    Fails s i f t := by
  cases hstack : s.stack with
  | nil =>
    rw [State.pop_of_nil hstack] at h
    cases h
    have hfails : Fails s i .stackUnderflow { s with stack := [] } :=
      .operand (by rw [hstack]; exact hi)
    rwa [← hstack] at hfails
  | cons a stack =>
    rw [State.pop_of_cons hstack] at h
    exact hk a stack hstack h

/-- An instruction that lacks its first or its second value fails. -/
theorem Fails.of_pop_pop {k : Int64 → Int64 → State → Step} (hi : 2 ≤ i.operands)
    (h : (s.pop fun a u => u.pop fun b v => k a b v) = .fault f t)
    (hk : ∀ a b stack, s.stack = a :: b :: stack → k a b { s with stack } = .fault f t →
      Fails s i f t) : Fails s i f t := by
  refine .of_pop (Nat.le_of_succ_le hi) h ?_
  intro a stack hstack hpop
  cases stack with
  | nil =>
    rw [State.pop_of_nil rfl] at hpop
    cases hpop
    refine .operand ?_
    rw [hstack]
    exact hi
  | cons b rest =>
    exact hk a b rest hstack hpop

theorem Fails.of_source? {source : Input → Except Fault Int64 × Input}
    (hi : i.source? = some source) (h : i.execute s = .fault f t) : Fails s i f t := by
  rw [execute_of_source? hi] at h
  by_cases hcan : s.output.canFlush = true
  · rw [State.flush_of_canFlush hcan] at h
    obtain ⟨herror, rfl⟩ := State.read_eq_fault_iff.1 h
    exact .read hi hcan herror
  · rw [State.flush_of_not_canFlush hcan] at h
    cases h
    exact .flush (isRead_iff.2 ⟨source, hi⟩) hcan

theorem Fails.of_arith {op : Arithmetic} (h : (Operation.arith op).execute s = .fault f t) :
    Fails s (.op (.arith op)) f t := by
  refine .of_pop_pop (Nat.le_refl 2) h ?_
  intro r l stack hstack hstep
  cases heval : op.eval? l r with
  | some v =>
    rw [heval] at hstep
    cases hstep
  | none =>
    rw [heval] at hstep
    cases hstep
    obtain ⟨hop, rfl⟩ := Arithmetic.eval?_eq_none_iff.1 heval
    exact .divisor hop hstack

theorem Fails.of_ret (h : s.ret = .fault f t) : Fails s (.op .ret) f t := by
  rw [State.ret] at h
  cases hcalls : s.calls with
  | nil =>
    rw [hcalls] at h
    cases h
    exact .ret hcalls
  | cons pc calls =>
    rw [hcalls] at h
    cases h

theorem fails_of_execute (h : i.execute s = .fault f t) : Fails s i f t := by
  cases hsource : i.source? with
  | some source => exact .of_source? hsource h
  | none =>
    cases hwritten : i.written? s with
    | some bytes =>
      rw [execute_of_written? hwritten] at h
      obtain ⟨rfl, herror, rfl⟩ := State.write_eq_fault_iff.1 h
      exact .write hwritten herror
    | none =>
      cases i with
      | push n | mark l => cases h
      | branch kind target =>
        cases kind with
        | call | jump => cases h
        | jumpIfZero | jumpIfNegative =>
          simp only [execute, Branch.execute] at h
          refine .of_pop (Nat.le_refl 1) h ?_
          intro a stack _ hstep
          cases hstep
      | op o =>
        cases o <;> simp only [execute, Operation.execute] at h
        case dup | discard | retrieve =>
          refine .of_pop (Nat.le_refl 1) h ?_
          intro a stack _ hstep
          cases hstep
        case swap | store =>
          refine .of_pop_pop (Nat.le_refl 2) h ?_
          intro a b stack _ hstep
          cases hstep
        case arith op => exact .of_arith h
        case ret => exact .of_ret h
        case exit => cases h
        case outChar | outNum =>
          refine .of_pop (Nat.le_refl 1) h ?_
          intro v stack hstack _
          rw [written?, Operation.written?, hstack] at hwritten
          cases hwritten
        case readChar | readNum => cases hsource

/-- Whatever lacks values takes those that there are. -/
theorem execute_of_short (h : s.stack.length < i.operands) :
    i.execute s = .fault .stackUnderflow { s with stack := [] } := by
  cases i with
  | push n | mark l => exact absurd h (Nat.not_lt_zero _)
  | branch kind target =>
    cases kind <;> simp only [execute, Branch.execute]
    case call | jump => exact absurd h (Nat.not_lt_zero _)
    case jumpIfZero | jumpIfNegative => exact State.pop_of_short h _
  | op o =>
    cases o <;> simp only [execute, Operation.execute]
    case ret | exit | readChar | readNum => exact absurd h (Nat.not_lt_zero _)
    case dup | discard | retrieve | outChar | outNum => exact State.pop_of_short h _
    case swap | store | arith op => exact State.pop_pop_of_short h _

/-- **The ways in which an instruction fails** are those that are listed. -/
theorem execute_eq_fault_iff : i.execute s = .fault f t ↔ Fails s i f t := by
  refine ⟨fails_of_execute, ?_⟩
  intro h
  cases h with
  | operand h => exact execute_of_short h
  | ret h => rw [execute, Operation.execute, State.ret, h]
  | @divisor op l stack hop h =>
    rw [execute, Operation.execute, State.pop_of_cons h, State.pop_of_cons rfl,
      Arithmetic.eval?_eq_none_iff.2 ⟨hop, rfl⟩]
  | write hi h => rw [execute_of_written? hi, State.write_eq_fault_iff]; exact ⟨rfl, h, rfl⟩
  | flush hi h =>
    obtain ⟨source, hsource⟩ := isRead_iff.1 hi
    rw [execute_of_source? hsource, State.flush_of_not_canFlush h]
  | read hi hcan h =>
    rw [execute_of_source? hi, State.flush_of_canFlush hcan, State.read_eq_fault_iff]
    exact ⟨h, rfl⟩

/-! ## What is left -/

theorem operands_of_isRead (h : i.isRead = true) : i.operands = 0 := by
  unfold isRead at h
  split at h <;> first | rfl | cases h

theorem exists_of_written? {bytes : List UInt8} (h : i.written? s = some bytes) :
    ∃ v stack, s.stack = v :: stack := by
  cases i with
  | push _ | mark _ | branch _ _ => cases h
  | op o =>
    obtain ⟨text, -, htext⟩ := Option.bind_eq_some_iff.1 h
    obtain ⟨v, hv, -⟩ := Option.map_eq_some_iff.1 htext
    obtain ⟨stack, hstack⟩ := List.head?_eq_some_iff.1 hv
    exact ⟨v, stack, hstack⟩

theorem eq_outChar_or_outNum {bytes : List UInt8} (h : i.written? s = some bytes) :
    i = .op .outChar ∨ i = .op .outNum := by
  cases i with
  | push _ | mark _ | branch _ _ => cases h
  | op o =>
    cases o with
    | outChar => exact .inl rfl
    | outNum => exact .inr rfl
    | _ => cases h

namespace Fails

theorem heap_eq (h : Fails s i f t) : t.heap = s.heap := by
  cases h <;> rfl

theorem leaves (h : Fails s i f t) : f.Leaves s t.stack := by
  cases h with
  | operand _ => rfl
  | ret hcalls => exact ⟨hcalls, rfl⟩
  | @divisor op l stack _ hstack => exact ⟨l, hstack⟩
  | write hi _ =>
    obtain ⟨v, stack, hstack⟩ := exists_of_written? hi
    refine ⟨v, ?_⟩
    rw [hstack]
    rfl
  | flush _ _ => rfl
  | read hi _ herror => exact Fault.leaves_of_isOfReading (isOfReading_source hi herror)

theorem stack_of_isRead (h : Fails s i f t) (hi : i.isRead = true) : t.stack = s.stack := by
  cases h with
  | operand hlt =>
    rw [operands_of_isRead hi] at hlt
    cases hlt
  | divisor _ _ => cases hi
  | write hwritten _ =>
    obtain ⟨source, hsource⟩ := isRead_iff.1 hi
    rw [written?_of_source? hsource] at hwritten
    cases hwritten
  | ret _ | flush _ _ | read _ _ _ => rfl

theorem reads_of_input_ne (h : Fails s i f t) (hne : t.input ≠ s.input) :
    i.isRead = true ∧ s.output.canFlush = true := by
  cases h with
  | read hi hcan _ => exact ⟨isRead_iff.2 ⟨_, hi⟩, hcan⟩
  | _ => exact absurd rfl hne

theorem writes_of_written_ne (h : Fails s i f t) (hne : t.output.written ≠ s.output.written) :
    i = .op .outChar ∨ i = .op .outNum := by
  cases h with
  | write hi _ => exact eq_outChar_or_outNum hi
  | read _ _ _ => exact absurd s.output.written_flush hne
  | _ => exact absurd rfl hne

end Fails

/-- What a fault leaves of the state in which its instruction was fetched. -/
structure Faulted (i : Instruction Target) (s : State) (f : Fault) (t : State) : Prop where
  pc : t.pc = s.pc + 1
  heap : t.heap = s.heap
  calls : t.calls = s.calls
  stack : f.Leaves s t.stack
  /-- Nothing has been pushed. -/
  suffix : t.stack <:+ s.stack
  /-- A read that fails leaves the data stack alone, whatever the fault. -/
  read : i.isRead = true → t.stack = s.stack
  /-- Only a read takes anything from the input, and not before its flush is done. -/
  input : t.input ≠ s.input → i.isRead = true ∧ s.output.canFlush = true
  output : t.output.written ≠ s.output.written → i = .op .outChar ∨ i = .op .outNum

/-- **A fault leaves a defined state.** -/
theorem faulted_of_execute (h : i.execute { s with pc := s.pc + 1 } = .fault f t) :
    Faulted i s f t := by
  have hfails := execute_eq_fault_iff.1 h
  obtain ⟨hpc, hcalls⟩ := control_of_fault h
  have hleaves : f.Leaves s t.stack := hfails.leaves
  exact {
    pc := hpc
    heap := hfails.heap_eq
    calls := hcalls
    stack := hleaves
    suffix := hleaves.suffix
    read := hfails.stack_of_isRead
    input := hfails.reads_of_input_ne
    output := hfails.writes_of_written_ne }

end Instruction

namespace Machine

open Instruction

variable {m : Machine} {p : Program} {fuel : Nat} {console : Console} {log : Log} {r : Report}

/-- **A run that is stopped by a fault leaves what the fault leaves.** -/
theorem faulted_of_run (h : m.run p fuel console log = some r) :
    ∃ e t, System.Ends p.move (State.initial console) e t ∧ r.outcome = e.close t ∧
      ∀ f, e = .fault f → r.result = .error f ∧
        ∃ s i, System.Reaches p.move (State.initial console) s ∧ p.get? s.pc = some i ∧
          i.execute { s with pc := s.pc + 1 } = .fault f t ∧ Faulted i s f r.state := by
  obtain ⟨e, t, hends, hout⟩ := ends_of_run h
  refine ⟨e, t, hends, hout, ?_⟩
  rintro f rfl
  have hresult : r.result = .error f := congrArg Outcome.result hout
  obtain ⟨s, hs, hlast⟩ := hends.exists_last
  rcases Program.move_eq_done hlast with ⟨hran, -⟩ | ⟨i, hi, ⟨hexit, -⟩ | ⟨g, hg, hstep⟩⟩
  · cases hran
  · cases hexit
  · cases hg
    have hfaulted := faulted_of_execute hstep
    refine ⟨hresult, s, i, hs, hi, hstep, ?_⟩
    rw [Report.state_of_outcome hout]
    -- the last flush is seen in the list of flushes only
    exact { hfaulted with
      output := by
        rw [Output.written_flush]
        exact hfaulted.output }

end Machine

namespace HalfWritten

/-- Writes a character that takes three bytes. -/
def program : Program := .ofList [.push 1, .push 8364, .op .outChar]

def console : Console := { output := { writeLimit := some 2 } }

/-- A writer that takes two bytes stops the run; the character is gone from the data
stack, and the value below it is still there. -/
theorem faulted : ∃ r, Machine.run {} program 3 console ⟨.warn, #[]⟩ = some r ∧
    r.result = .error (.stream .writeFailed) ∧ r.state.output.written = #[0xE2, 0x82] ∧
    r.state.stack = [1] ∧
    ∃ s, program.get? s.pc = some (.op .outChar) ∧
      Instruction.Faulted (.op .outChar) s (.stream .writeFailed) r.state := by
  obtain ⟨r, hr, hresult, hwritten, hstack, hpc⟩ :
      ∃ r, Machine.run {} program 3 console ⟨.warn, #[]⟩ = some r ∧
        r.result = .error (.stream .writeFailed) ∧ r.state.output.written = #[0xE2, 0x82] ∧
        r.state.stack = [1] ∧ r.state.pc = 3 := ⟨_, rfl, rfl, rfl, rfl, rfl⟩
  obtain ⟨e, t, hends, -, hfault⟩ := Machine.faulted_of_run hr
  have hrun : ∃ u, System.run program.move 3 (State.initial console) =
      some (.fault (.stream .writeFailed), u) := ⟨_, rfl⟩
  obtain ⟨u, hu⟩ := hrun
  obtain ⟨rfl, -⟩ := hends.unique (.of_run hu)
  obtain ⟨-, s, i, -, hi, -, hfaulted⟩ := hfault _ rfl
  have hlast : s.pc = 2 := by
    have hsucc := hfaulted.pc
    rw [hpc] at hsucc
    omega
  rw [hlast] at hi
  cases hi
  exact ⟨r, hr, hresult, hwritten, hstack, s, by rw [hlast]; rfl, hfaulted⟩

end HalfWritten

end Whitespace
