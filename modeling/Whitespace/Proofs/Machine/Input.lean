import Whitespace.Proofs.Machine.Frame

/-!
# Input

A read takes some bytes from the front of the input and leaves the rest as it was
(`Input.Leaves`), and so does a whole execution (`System.Ends.leaves`).  What else
an instruction does to the input depends on nothing but its own reading
(`Instruction.input_execute`), and a change of the input goes along with every
instruction whose reading it goes along with (`Instruction.execute_mapInput`).
-/

namespace Whitespace

namespace Input

/-! ## Bytes that have been read -/

theorem advance_advance (i : Input) (m n : Nat) : (i.advance m).advance n = i.advance (m + n) := by
  simp only [advance, List.drop_drop, mk.injEq, List.length_take, List.length_drop, true_and]
  omega

theorem advance_of_length_le {i : Input} {n : Nat} (h : i.bytes.length ≤ n) :
    i.advance n = i.advance i.bytes.length := by
  simp only [advance, List.drop_length, List.take_length, List.drop_of_length_le h,
    List.take_of_length_le h]

/-- Reading the first input leaves the second one. -/
def Leaves (i j : Input) : Prop := ∃ n ≤ i.bytes.length, j = i.advance n

namespace Leaves

variable {i j k : Input}

theorem refl (i : Input) : Leaves i i := ⟨0, Nat.zero_le _, rfl⟩

theorem of_advance (i : Input) (n : Nat) : Leaves i (i.advance n) := by
  by_cases h : n ≤ i.bytes.length
  · exact ⟨n, h, rfl⟩
  · exact ⟨i.bytes.length, Nat.le_refl _, advance_of_length_le (Nat.le_of_not_le h)⟩

theorem trans (h : Leaves i j) (h' : Leaves j k) : Leaves i k := by
  obtain ⟨m, -, rfl⟩ := h
  obtain ⟨n, -, rfl⟩ := h'
  rw [advance_advance]
  exact of_advance i (m + n)

theorem length_le (h : Leaves i j) : j.bytes.length ≤ i.bytes.length := by
  obtain ⟨n, -, rfl⟩ := h
  rw [advance, List.length_drop]
  omega

/-- The counter tells what is left. -/
theorem eq_advance (h : Leaves i j) {n : Nat} (hn : j.consumed = i.consumed + n) :
    j = i.advance n ∧ n ≤ i.bytes.length := by
  obtain ⟨m, hm, rfl⟩ := h
  obtain rfl : m = n := by
    simp only [advance, List.length_take] at hn
    omega
  exact ⟨rfl, hm⟩

end Leaves

/-! ## Lines -/

theorem line_append_of_mem {a : List UInt8} (h : 0x0A ∈ a) (b : List UInt8) :
    line (a ++ b) = line a := by
  induction a with
  | nil => cases h
  | cons c a ih =>
    by_cases hc : c = 0x0A
    · subst hc
      rfl
    · have hmem : 0x0A ∈ a := by
        rcases List.mem_cons.1 h with rfl | h
        · exact absurd rfl hc
        · exact h
      have hcons : ∀ bytes, line (c :: bytes) = c :: line bytes := by
        intro bytes
        simp [line, hc]
      rw [List.cons_append, hcons, hcons, ih hmem]

/-- Without a line feed the line goes on. -/
theorem line_append_of_notMem {a : List UInt8} (h : 0x0A ∉ a) (b : List UInt8) :
    line (a ++ b) = a ++ line b := by
  have hall : ∀ c ∈ a, (c != 0x0A) = true := by
    intro c hc
    rw [bne_iff_ne]
    rintro rfl
    exact h hc
  rw [line, line, List.takeWhile_append_of_pos hall, List.dropWhile_append_of_pos hall,
    List.append_assoc]

theorem line_ne_nil {bytes : List UInt8} (h : bytes ≠ []) : line bytes ≠ [] := by
  cases bytes with
  | nil => exact absurd rfl h
  | cons c bytes =>
    by_cases hc : c = 0x0A
    · subst hc
      exact nofun
    · simp [line, hc]

/-! ## Reading -/

variable {i : Input} {b : UInt8} {rest : List UInt8}

theorem width_pos {b : UInt8} {width : Nat} (h : width? b = some width) : 0 < width := by
  unfold width? at h
  grind

theorem readChar_of_width_eq_none (h : i.bytes = b :: rest) (hw : width? b = none) :
    i.readChar = (.error (.stream .notUtf8), i.advance 1) := by
  simp only [readChar, h, hw]

theorem snd_readChar_of_width {width : Nat} (h : i.bytes = b :: rest)
    (hw : width? b = some width) : i.readChar.2 = i.advance width := by
  simp only [readChar, h, hw]

/-- A character is judged by as many bytes as it announces. -/
theorem readChar_of_width_le {width : Nat} (h : i.bytes = b :: rest)
    (hw : width? b = some width) (hle : width ≤ i.bytes.length) :
    i.readChar =
      ((Utf8.decodeChar? (i.bytes.take width)).elim (.error (.stream .notUtf8)) .ok,
        i.advance width) := by
  have hlen : ¬ (i.bytes.take width).length < width := by
    rw [List.length_take]
    omega
  rw [h] at hlen
  simp only [readChar, h, hw, if_neg hlen]
  cases Utf8.decodeChar? ((b :: rest).take width) <;> rfl

/-- A line that is over is judged as it stands, whatever lies behind it. -/
theorem readNum_of_over (h : 0x0A ∈ i.bytes ∨ i.ending = .closed) :
    i.readNum =
      ((Decimal.toInt64? (Utf8.decodeLossy (trimLine (line i.bytes))).toList).elim
          (.error (.notANumber (Utf8.decodeLossy (trimLine (line i.bytes))))) .ok,
        i.advance (line i.bytes).length) := by
  have hover : (i.lacksLine && i.ending = .broken) = false := by
    rw [lacksLine, Bool.and_eq_false_iff, Bool.not_eq_false', List.contains_iff_mem]
    refine h.imp_right fun hclosed => ?_
    rw [hclosed]
    rfl
  simp only [readNum, hover, Bool.false_eq_true, ↓reduceIte]
  cases Decimal.toInt64? (Utf8.decodeLossy (trimLine (line i.bytes))).toList <;> rfl

theorem leaves_readChar (i : Input) : i.Leaves i.readChar.2 := by
  cases h : i.bytes with
  | nil =>
    simp only [readChar, h]
    cases i.ending <;> exact .refl i
  | cons b rest =>
    cases hw : width? b with
    | none =>
      rw [readChar_of_width_eq_none h hw]
      exact .of_advance i 1
    | some width =>
      rw [snd_readChar_of_width h hw]
      exact .of_advance i width

theorem leaves_readNum (i : Input) : i.Leaves i.readNum.2 := .of_advance i _

end Input

theorem Operation.leaves_source {o : Operation} {source : Input → Except Fault Int64 × Input}
    (h : o.source? = some source) (i : Input) : i.Leaves (source i).2 := by
  cases o <;> cases h
  case readChar => exact i.leaves_readChar
  case readNum => exact i.leaves_readNum

/-! ## Changing the input -/

def State.mapInput (ψ : Input → Input) (s : State) : State := { s with input := ψ s.input }

theorem State.frame_mapInput (ψ : Input → Input) : Frame (mapInput ψ) ψ where
  stack _ := rfl
  heap _ := rfl
  output _ := rfl
  input _ := rfl
  setStack _ _ := rfl
  setHeap _ _ := rfl
  setOutput _ _ := rfl
  setInput _ _ := rfl

theorem State.renumbers_mapInput (ψ : Input → Input) : Renumbers (mapInput ψ) id where
  pc _ := rfl
  calls s := s.calls.map_id.symm
  setControl s pc calls := by
    rw [List.map_id]
    rfl

namespace Instruction

variable {i : Instruction Target} {s : State} {ψ : Input → Input}

/-- A change of the input goes along with an instruction, if it goes along with
what the instruction reads. -/
theorem execute_mapInput
    (hread : ∀ source, i.source? = some source → s.output.canFlush = true →
      source (ψ s.input) = Prod.map id ψ (source s.input)) :
    i.execute (s.mapInput ψ) = (i.execute s).map (State.mapInput ψ) := by
  have hframe := execute_frame (State.frame_mapInput ψ) (State.renumbers_mapInput ψ) hread
  rwa [mapTarget_relocate_id] at hframe

/-- **What an instruction does to the input**: it reads, provided that it is one
that reads and that the output can be flushed before. -/
theorem input_execute (i : Instruction Target) (s : State) :
    (i.execute s).state.input =
      match i.source? with
      | some source => if s.output.canFlush = true then (source s.input).2 else s.input
      | none => s.input := by
  cases hsource : i.source? with
  | some source =>
    cases i with
    | push _ | mark _ | branch _ _ => cases hsource
    | op o =>
      dsimp only
      rw [execute, Operation.execute_of_source? hsource]
      by_cases hflush : s.output.canFlush = true
      · rw [State.flush_of_canFlush hflush, State.input_read, if_pos hflush]
      · rw [State.flush_of_not_canFlush hflush, if_neg hflush]
        rfl
  | none =>
    -- what goes along with the change of any input to this one has this one
    have hmap : i.execute (s.mapInput fun _ => s.input) =
        (i.execute s).map (State.mapInput fun _ => s.input) := by
      apply execute_mapInput
      intro source h
      rw [hsource] at h
      cases h
    have hstate := congrArg (fun step => step.state.input) hmap
    rw [Step.state_map] at hstate
    exact hstate

theorem leaves_execute (i : Instruction Target) (s : State) :
    s.input.Leaves (i.execute s).state.input := by
  rw [input_execute]
  cases hsource : i.source? with
  | none => exact .refl _
  | some source =>
    dsimp only
    split
    · cases i with
      | push _ | mark _ | branch _ _ => cases hsource
      | op o => exact Operation.leaves_source hsource s.input
    · exact .refl _

end Instruction

/-! ## Moves and executions -/

theorem Step.state_move (step : Step) : step.move.state = step.state := by
  cases step <;> rfl

namespace Program

variable {p : Program} {s : State} {ψ : Input → Input}

theorem move_mapInput
    (hread : ∀ i source, p.get? s.pc = some i → i.source? = some source →
      s.output.canFlush = true → source (ψ s.input) = Prod.map id ψ (source s.input)) :
    p.move (s.mapInput ψ) = (p.move s).map (State.mapInput ψ) := by
  refine move_map (congrFun Option.map_id _).symm ?_
  intro i hi
  exact Instruction.execute_mapInput (s := { s with pc := s.pc + 1 })
    fun source hsource => hread i source hi hsource

theorem leaves_move (p : Program) (s : State) : s.input.Leaves (p.move s).state.input := by
  cases hi : p.get? s.pc with
  | none =>
    rw [move, hi]
    exact .refl _
  | some i =>
    rw [move_of_get? hi, Step.state_move]
    exact i.leaves_execute { s with pc := s.pc + 1 }

end Program

/-- **An execution reads its input from the front.** -/
theorem System.Ends.leaves {p : Program} {s t : State} {e : Ending} (h : Ends p.move s e t) :
    s.input.Leaves t.input :=
  h.relates (R := fun u v => u.input.Leaves v.input) p.leaves_move fun _ _ _ => .trans

/-! ## Runs -/

theorem Report.input_of_outcome {r : Report} {e : Ending} {t : State}
    (h : r.outcome = e.close t) : r.state.input = t.input := by
  rw [state_of_outcome h]

def Outcome.mapInput (ψ : Input → Input) (o : Outcome) : Outcome :=
  ⟨o.result, o.state.mapInput ψ⟩

theorem Ending.close_mapInput (e : Ending) (s : State) (ψ : Input → Input) :
    e.close (s.mapInput ψ) = (e.close s).mapInput ψ := by
  cases e <;> rfl

/-- A change of the input that goes along with every move goes along with the run. -/
theorem Machine.outcome_run_mapInput {p : Program} {console : Console} {ψ : Input → Input}
    (h : ∀ u, System.Reaches p.move (State.initial console) u →
      p.move (u.mapInput ψ) = (p.move u).map (State.mapInput ψ))
    (m : Machine) (fuel : Nat) (log : Log) :
    (m.run p fuel { console with input := ψ console.input } log).map Report.outcome =
      (m.run p fuel console log).map fun r => r.outcome.mapInput ψ := by
  have hinitial : State.initial { console with input := ψ console.input } =
      (State.initial console).mapInput ψ := rfl
  have houtcome : (fun r : Report => r.outcome.mapInput ψ) =
      Outcome.mapInput ψ ∘ Report.outcome := rfl
  rw [houtcome, ← Option.map_map, outcome_run, outcome_run, hinitial, System.run_map h,
    Option.map_map, Option.map_map]
  congr 1
  funext r
  exact r.1.close_mapInput r.2 ψ

end Whitespace
