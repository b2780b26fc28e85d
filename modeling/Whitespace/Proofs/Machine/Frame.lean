import Whitespace.Proofs.Code
import Whitespace.Proofs.Machine.Execution

/-!
# Frames

An instruction works on the top of the data stack, on the heap, on the control and
on the streams.  A change that puts values below the data stack and changes the
streams (`State.Change`), and that may renumber the places of the control
(`State.Renumbers`), can be made before an instruction or behind it
(`Instruction.execute_change`), provided that three things go along with it: what
the instruction takes off the data stack is there without the values below, what
it writes and flushes (`Operation.written?`) does the same to the changed output,
and what it reads (`Operation.source?`) does the same to the changed input.

A change that leaves even the output alone is a `State.Frame`.
-/

namespace Whitespace

namespace Step

def state : Step → State
  | next s => s
  | exit s => s
  | fault _ s => s

theorem state_map (φ : State → State) (step : Step) : (step.map φ).state = φ step.state := by
  cases step <;> rfl

/-- The step does not ask for any of the values below the data stack, if there
are some. -/
def Spares (below : List Int64) (step : Step) : Prop :=
  below = [] ∨ ∀ t, step ≠ .fault .stackUnderflow t

end Step

/-! ## Streams of a state -/

namespace Output

variable {o : Output}

theorem write_of_writeLimit_eq_none (h : o.writeLimit = none) (bytes : List UInt8) :
    o.write bytes = (.ok (), { o with written := o.written ++ bytes }) := by
  obtain ⟨written, flushes, writeLimit, flushLimit⟩ := o
  cases h
  rfl

theorem canFlush_of_flushLimit_eq_none (h : o.flushLimit = none) : o.canFlush = true := by
  rw [canFlush, h]

theorem flush_of_canFlush (h : o.canFlush = true) :
    o.flush = (.ok (), { o with flushes := o.flushes.push o.written.size }) := by
  rw [flush, if_pos h]

theorem flush_of_not_canFlush (h : ¬ o.canFlush = true) :
    o.flush = (.error .flushFailed, o) := by
  rw [flush, if_neg h]

end Output

namespace State

theorem write_eq (s : State) (bytes : List UInt8) :
    s.write bytes =
      match s.output.write bytes with
      | (.ok (), output) => .next { s with output }
      | (.error f, output) => .fault (.stream f) { s with output } := by
  obtain ⟨machine, ⟨input, output⟩⟩ := s
  rfl

theorem flush_eq (s : State) (k : State → Step) :
    s.flush k =
      match s.output.flush with
      | (.ok (), output) => k { s with output }
      | (.error f, output) => .fault (.stream f) { s with output } := by
  obtain ⟨machine, ⟨input, output⟩⟩ := s
  rfl

theorem flush_of_canFlush {s : State} (h : s.output.canFlush = true) (k : State → Step) :
    s.flush k = k { s with output := s.output.flush.2 } := by
  rw [flush_eq, Output.flush_of_canFlush h]

theorem flush_of_not_canFlush {s : State} (h : ¬ s.output.canFlush = true) (k : State → Step) :
    s.flush k = .fault (.stream .flushFailed) s := by
  rw [flush_eq, Output.flush_of_not_canFlush h]

theorem pop_of_cons {s : State} {a : Int64} {stack : List Int64} (h : s.stack = a :: stack)
    (k : Int64 → State → Step) : s.pop k = k a { s with stack } := by
  rw [pop, h]

/-- A value can be turned into its number before it leaves the input. -/
theorem read_map {α : Type} (s : State) (source : Input → Except Fault α × Input)
    (number : α → Int64) :
    s.read source number = s.read (fun i => ((source i).1.map number, (source i).2)) id := by
  simp only [read]
  rcases source s.input with ⟨_ | a, input⟩ <;> rfl

theorem input_read {α : Type} (s : State) (source : Input → Except Fault α × Input)
    (number : α → Int64) : (s.read source number).state.input = (source s.input).2 := by
  unfold read
  rcases source s.input with ⟨_ | a, input⟩ <;> rfl

/-! ## Changes -/

/-- A change of states that puts the values `below` under the data stack, leaves
the heap alone and changes the input by `ψ` and the output by `χ`. -/
structure Change (φ : State → State) (below : List Int64) (ψ : Input → Input)
    (χ : Output → Output) : Prop where
  stack : ∀ s, (φ s).stack = s.stack ++ below
  heap : ∀ s, (φ s).heap = s.heap
  input : ∀ s, (φ s).input = ψ s.input
  output : ∀ s, (φ s).output = χ s.output
  setStack : ∀ s stack, φ { s with stack } = { φ s with stack := stack ++ below }
  setHeap : ∀ s heap, φ { s with heap } = { φ s with heap }
  setInput : ∀ s input, φ { s with input } = { φ s with input := ψ input }
  setOutput : ∀ s output, φ { s with output } = { φ s with output := χ output }

/-- A change of states that renumbers the places that a state knows of. -/
structure Renumbers (φ : State → State) (ρ : Nat → Nat) : Prop where
  pc : ∀ s, (φ s).pc = ρ s.pc
  calls : ∀ s, (φ s).calls = s.calls.map ρ
  setControl : ∀ s pc calls, φ { s with pc, calls } = { φ s with pc := ρ pc, calls := calls.map ρ }

/-- A change of states that leaves the data stack, the heap and the output alone
and changes the input by `ψ`. -/
structure Frame (φ : State → State) (ψ : Input → Input) : Prop where
  stack : ∀ s, (φ s).stack = s.stack
  heap : ∀ s, (φ s).heap = s.heap
  output : ∀ s, (φ s).output = s.output
  input : ∀ s, (φ s).input = ψ s.input
  setStack : ∀ s stack, φ { s with stack } = { φ s with stack }
  setHeap : ∀ s heap, φ { s with heap } = { φ s with heap }
  setOutput : ∀ s output, φ { s with output } = { φ s with output }
  setInput : ∀ s input, φ { s with input } = { φ s with input := ψ input }

theorem Frame.change {φ : State → State} {ψ : Input → Input} (h : Frame φ ψ) :
    Change φ [] ψ id where
  stack s := by rw [h.stack, List.append_nil]
  heap := h.heap
  input := h.input
  output := h.output
  setStack s stack := by rw [h.setStack, List.append_nil]
  setHeap := h.setHeap
  setInput := h.setInput
  setOutput := h.setOutput

namespace Change

variable {φ : State → State} {below : List Int64} {ψ : Input → Input} {χ : Output → Output}
  (h : Change φ below ψ χ)

include h

theorem push (s : State) (a : Int64) : φ (s.push a) = (φ s).push a := by
  rw [State.push, State.push, h.setStack, h.stack, List.cons_append]

theorem pop (s : State) {k k' : Int64 → State → Step} (hs : (s.pop k).Spares below)
    (hk : ∀ a stack, s.stack = a :: stack →
      k' a (φ { s with stack }) = (k a { s with stack }).map φ) :
    (φ s).pop k' = (s.pop k).map φ := by
  cases hstack : s.stack with
  | nil =>
    -- the value that is missing here would be taken from below
    have hpop : s.pop k = .fault .stackUnderflow s := by rw [State.pop, hstack]
    rcases hs with rfl | hs
    · rw [hpop, State.pop, h.stack, hstack]
      rfl
    · exact absurd hpop (hs s)
  | cons a stack =>
    have hchanged : (φ s).stack = a :: (stack ++ below) := by
      rw [h.stack, hstack, List.cons_append]
    rw [pop_of_cons hstack, pop_of_cons hchanged, ← h.setStack]
    exact hk a stack hstack

theorem write (s : State) {bytes : List UInt8}
    (hw : (χ s.output).write bytes = Prod.map id χ (s.output.write bytes)) :
    (φ s).write bytes = (s.write bytes).map φ := by
  rw [write_eq, write_eq, h.output, hw]
  rcases s.output.write bytes with ⟨_ | _, output⟩
  · exact congrArg (Step.fault _) (h.setOutput s output).symm
  · exact congrArg Step.next (h.setOutput s output).symm

theorem flush (s : State) {k k' : State → Step}
    (hf : (χ s.output).flush = Prod.map id χ s.output.flush)
    (hk : s.output.canFlush = true → ∀ t, t.input = s.input → k' (φ t) = (k t).map φ) :
    (φ s).flush k' = (s.flush k).map φ := by
  by_cases hs : s.output.canFlush = true
  · have hok := Output.flush_of_canFlush hs
    rw [hok] at hf
    rw [flush_eq, flush_eq, h.output, hf, hok]
    refine Eq.trans (congrArg k' (h.setOutput s _).symm) ?_
    exact hk hs _ rfl
  · have herror := Output.flush_of_not_canFlush hs
    rw [herror] at hf
    rw [flush_eq, flush_eq, h.output, hf, herror]
    exact congrArg (Step.fault _) (h.setOutput s s.output).symm

theorem read {α : Type} (s : State) {source : Input → Except Fault α × Input}
    (number : α → Int64) (hs : source (ψ s.input) = Prod.map id ψ (source s.input)) :
    (φ s).read source number = (s.read source number).map φ := by
  unfold State.read
  rw [h.input, hs]
  rcases source s.input with ⟨f | a, input⟩
  · exact congrArg (Step.fault f) (h.setInput s input).symm
  · refine congrArg Step.next ?_
    rw [h.push, h.setInput s input]

end Change

/-- A return goes back to where the changed state would go back to. -/
theorem Renumbers.ret {φ : State → State} {ρ : Nat → Nat} (h : Renumbers φ ρ) (s : State) :
    (φ s).ret = s.ret.map φ := by
  unfold State.ret
  rw [h.calls]
  cases s.calls with
  | nil => rfl
  | cons pc calls => exact congrArg Step.next (h.setControl s pc calls).symm

end State

/-! ## Operations -/

namespace Operation

/-- How an operation reads from the input, if it does. -/
def source? : Operation → Option (Input → Except Fault Int64 × Input)
  | readChar => some fun i => (i.readChar.1.map valueOfChar, i.readChar.2)
  | readNum => some Input.readNum
  | _ => none

/-- How an operation spells the value that it writes, if it does. -/
def text? : Operation → Option (Int64 → List UInt8)
  | outChar => some fun v => Utf8.encodeChar (charOfValue v)
  | outNum => some fun v => (Decimal.ofInt v.toInt).flatMap Utf8.encodeChar
  | _ => none

/-- What an operation writes in a state, if it gets so far. -/
def written? (o : Operation) (s : State) : Option (List UInt8) :=
  o.text?.bind fun text => s.stack.head?.map text

theorem execute_of_source? {o : Operation} {source : Input → Except Fault Int64 × Input}
    (h : o.source? = some source) (s : State) :
    o.execute s = s.flush fun t => t.read source id := by
  cases o <;> cases h
  case readChar =>
    rw [execute]
    congr 1
    funext t
    exact t.read_map Input.readChar valueOfChar
  case readNum => rfl

theorem execute_of_text? {o : Operation} {text : Int64 → List UInt8} (h : o.text? = some text)
    (s : State) : o.execute s = s.pop fun v t => t.write (text v) := by
  cases o <;> cases h <;> rfl

variable {φ : State → State} {below : List Int64} {ψ : Input → Input} {χ : Output → Output}
  {o : Operation} {s : State}

/-- **A change goes along with an operation**, a return apart, if it goes along
with what the operation does to the streams. -/
theorem execute_change (h : State.Change φ below ψ χ) (ho : o ≠ .ret)
    (hspares : (o.execute s).Spares below)
    (hwrite : ∀ bytes, o.written? s = some bytes →
      (χ s.output).write bytes = Prod.map id χ (s.output.write bytes))
    (hflush : ∀ source, o.source? = some source →
      (χ s.output).flush = Prod.map id χ s.output.flush)
    (hread : ∀ source, o.source? = some source → s.output.canFlush = true →
      source (ψ s.input) = Prod.map id ψ (source s.input)) :
    o.execute (φ s) = (o.execute s).map φ := by
  cases hsource : o.source? with
  | some source =>
    rw [execute_of_source? hsource, execute_of_source? hsource]
    refine h.flush s (hflush source hsource) ?_
    intro hs t ht
    refine h.read t id ?_
    rw [ht]
    exact hread source hsource hs
  | none =>
    cases htext : o.text? with
    | some text =>
      rw [execute_of_text? htext] at hspares ⊢
      rw [execute_of_text? htext]
      refine h.pop s hspares ?_
      intro v stack hstack
      refine h.write { s with stack } (hwrite (text v) ?_)
      rw [written?, htext, hstack]
      rfl
    | none =>
      cases o <;> simp only [execute] at hspares ⊢
      case ret => exact absurd rfl ho
      case readChar | readNum => cases hsource
      case outChar | outNum => cases htext
      case exit => rfl
      case dup =>
        refine h.pop s hspares fun a stack _ => congrArg Step.next ?_
        rw [h.push, h.push]
      case discard => exact h.pop s hspares fun _ _ _ => rfl
      case retrieve =>
        refine h.pop s hspares fun address stack _ => congrArg Step.next ?_
        rw [h.heap, h.push]
      case swap =>
        refine h.pop s hspares fun a stack hstack => ?_
        rw [State.pop_of_cons hstack] at hspares
        refine h.pop _ hspares fun b rest _ => congrArg Step.next ?_
        rw [h.push, h.push]
      case store =>
        refine h.pop s hspares fun value stack hstack => ?_
        rw [State.pop_of_cons hstack] at hspares
        refine h.pop _ hspares fun address rest _ => congrArg Step.next ?_
        rw [h.setHeap { s with stack := rest } (s.heap.store address value), h.heap]
      case arith op =>
        refine h.pop s hspares fun r stack hstack => ?_
        rw [State.pop_of_cons hstack] at hspares
        refine h.pop _ hspares fun l rest _ => ?_
        cases op.eval? l r with
        | none => rfl
        | some v => exact congrArg Step.next (h.push _ v).symm

/-- A change outside of the data goes along with an operation, a return apart, if
it goes along with what the operation reads. -/
theorem execute_frame (h : State.Frame φ ψ) (ho : o ≠ .ret)
    (hread : ∀ source, o.source? = some source → s.output.canFlush = true →
      source (ψ s.input) = Prod.map id ψ (source s.input)) :
    o.execute (φ s) = (o.execute s).map φ := by
  refine execute_change h.change ho (.inl rfl) ?_ ?_ hread
  · intro bytes _
    exact (congrFun Prod.map_id _).symm
  · intro source _
    exact (congrFun Prod.map_id _).symm

end Operation

/-! ## Instructions -/

/-- **A change goes along with a branch** that leads to the renumbered place. -/
theorem Branch.execute_change {φ : State → State} {below : List Int64} {ψ : Input → Input}
    {χ : Output → Output} {ρ : Nat → Nat} (h : State.Change φ below ψ χ)
    (hcontrol : State.Renumbers φ ρ) {kind : Branch} {s : State} {index : Nat}
    (hspares : (kind.execute s index).Spares below) :
    kind.execute (φ s) (ρ index) = (kind.execute s index).map φ := by
  have hjump : ∀ t, { φ t with pc := ρ index } = φ { t with pc := index } := by
    intro t
    rw [hcontrol.setControl t index t.calls, ← hcontrol.calls]
  cases kind <;> simp only [execute] at hspares ⊢
  case jump => exact congrArg Step.next (hjump s)
  case call =>
    refine congrArg Step.next ?_
    rw [hcontrol.setControl s index (s.pc :: s.calls), List.map_cons, ← hcontrol.calls,
      ← hcontrol.pc]
  case jumpIfZero =>
    refine h.pop s hspares fun a stack _ => congrArg Step.next ?_
    by_cases ha : a = 0
    · rw [if_pos ha, if_pos ha, hjump]
    · rw [if_neg ha, if_neg ha]
  case jumpIfNegative =>
    refine h.pop s hspares fun a stack _ => congrArg Step.next ?_
    by_cases ha : a < 0
    · rw [if_pos ha, if_pos ha, hjump]
    · rw [if_neg ha, if_neg ha]

namespace Instruction

/-- How an instruction reads from the input, if it does. -/
def source? : Instruction Target → Option (Input → Except Fault Int64 × Input)
  | op o => o.source?
  | _ => none

/-- What an instruction writes in a state, if it gets so far. -/
def written? (s : State) : Instruction Target → Option (List UInt8)
  | op o => o.written? s
  | _ => none

/-- **A change goes along with an instruction** whose target is renumbered, if it
goes along with what the instruction does to the streams. -/
theorem execute_change {φ : State → State} {below : List Int64} {ψ : Input → Input}
    {χ : Output → Output} {ρ : Nat → Nat} (h : State.Change φ below ψ χ)
    (hcontrol : State.Renumbers φ ρ) {i : Instruction Target} {s : State}
    (hspares : (i.execute s).Spares below)
    (hwrite : ∀ bytes, i.written? s = some bytes →
      (χ s.output).write bytes = Prod.map id χ (s.output.write bytes))
    (hflush : ∀ source, i.source? = some source →
      (χ s.output).flush = Prod.map id χ s.output.flush)
    (hread : ∀ source, i.source? = some source → s.output.canFlush = true →
      source (ψ s.input) = Prod.map id ψ (source s.input)) :
    (i.mapTarget (Target.relocate ρ)).execute (φ s) = (i.execute s).map φ := by
  cases i with
  | push n => exact congrArg Step.next (h.push s n).symm
  | mark l => rfl
  | branch kind target => exact Branch.execute_change h hcontrol hspares
  | op o =>
    by_cases ho : o = .ret
    · subst ho
      exact hcontrol.ret s
    · exact Operation.execute_change h ho hspares hwrite hflush hread

/-- A change that leaves the streams alone goes along with an instruction that asks
for none of the values below. -/
theorem execute_of_change {φ : State → State} {below : List Int64} {ρ : Nat → Nat}
    (h : State.Change φ below id id) (hcontrol : State.Renumbers φ ρ) {i : Instruction Target}
    {s : State} (hspares : (i.execute s).Spares below) :
    (i.mapTarget (Target.relocate ρ)).execute (φ s) = (i.execute s).map φ := by
  refine execute_change h hcontrol hspares ?_ ?_ ?_
  · intro bytes _
    exact (congrFun Prod.map_id _).symm
  · intro source _
    exact (congrFun Prod.map_id _).symm
  · intro source _ _
    exact (congrFun Prod.map_id _).symm

/-- A change outside of the data goes along with an instruction whose target is
renumbered, if it goes along with what the instruction reads. -/
theorem execute_frame {φ : State → State} {ψ : Input → Input} {ρ : Nat → Nat}
    (h : State.Frame φ ψ) (hcontrol : State.Renumbers φ ρ) {i : Instruction Target} {s : State}
    (hread : ∀ source, i.source? = some source → s.output.canFlush = true →
      source (ψ s.input) = Prod.map id ψ (source s.input)) :
    (i.mapTarget (Target.relocate ρ)).execute (φ s) = (i.execute s).map φ := by
  refine execute_change h.change hcontrol (.inl rfl) ?_ ?_ hread
  · intro bytes _
    exact (congrFun Prod.map_id _).symm
  · intro source _
    exact (congrFun Prod.map_id _).symm

end Instruction

end Whitespace
