import Whitespace.Proofs.Machine.Input

/-!
# Reading ahead

A run knows of its input what it has consumed, and nothing of what follows.  Let
the last `n` bytes of an input be replaced, and the way in which it ends
(`Input.splice`).  A read that leaves `n` bytes or more does the same before and
after (`Operation.source_splice`): a character has as many bytes as its first one
announces, and a line is over with its line feed.  So a run that stops before the
end of its input stops in the same way, whatever comes next
(`run_reads_no_further`).
-/

namespace Whitespace

namespace Input

/-- Replaces the last `n` bytes, and what lies behind them. -/
def splice (n : Nat) (rest : List UInt8) (ending : InputEnd) (i : Input) : Input :=
  { i with bytes := i.bytes.take (i.bytes.length - n) ++ rest, ending }

variable {n m : Nat} {i : Input} (rest : List UInt8) (ending : InputEnd)

theorem take_splice (h : m + n ≤ i.bytes.length) :
    (i.splice n rest ending).bytes.take m = i.bytes.take m := by
  rw [splice, List.take_append_of_le_length (by rw [List.length_take]; omega), List.take_take]
  congr 1
  omega

/-- The first byte stays if it is not among the last `n`. -/
theorem exists_bytes_splice {b : UInt8} {tail : List UInt8} (hbytes : i.bytes = b :: tail)
    (h : 1 + n ≤ i.bytes.length) : ∃ tail', (i.splice n rest ending).bytes = b :: tail' := by
  have htake := take_splice rest ending h
  rw [hbytes, List.take_succ_cons, List.take_zero] at htake
  cases hsplice : (i.splice n rest ending).bytes with
  | nil =>
    rw [hsplice] at htake
    cases htake
  | cons b' tail' =>
    rw [hsplice, List.take_succ_cons, List.take_zero] at htake
    cases htake
    exact ⟨tail', rfl⟩

theorem advance_splice (h : m + n ≤ i.bytes.length) :
    (i.splice n rest ending).advance m = (i.advance m).splice n rest ending := by
  have hle : m ≤ (i.bytes.take (i.bytes.length - n)).length := by
    rw [List.length_take]
    omega
  have hbytes : (i.bytes.take (i.bytes.length - n) ++ rest).drop m =
      (i.bytes.drop m).take ((i.bytes.drop m).length - n) ++ rest := by
    rw [List.drop_append_of_le_length hle, List.drop_take, List.length_drop]
    congr 2
    omega
  have htake := congrArg List.length (take_splice rest ending h)
  simp only [splice] at htake
  simp only [advance, splice, hbytes, htake]

/-- A line that leaves bytes behind it has a line feed. -/
theorem mem_take_of_line_length (hn : 0 < n) (h : (line i.bytes).length + n ≤ i.bytes.length) :
    0x0A ∈ i.bytes.take (i.bytes.length - n) := by
  by_cases hmem : 0x0A ∈ i.bytes.take (i.bytes.length - n)
  · exact hmem
  have hdrop : i.bytes.drop (i.bytes.length - n) ≠ [] := by
    rw [Ne, List.drop_eq_nil_iff]
    omega
  have hpos := List.length_pos_iff.2 (line_ne_nil hdrop)
  have hline := congrArg List.length
    (line_append_of_notMem hmem (i.bytes.drop (i.bytes.length - n)))
  rw [List.take_append_drop, List.length_append, List.length_take] at hline
  omega

/-! ## Reads that stop in time -/

theorem readNum_splice (hn : 0 < n) (h : n ≤ i.readNum.2.bytes.length) :
    (i.splice n rest ending).readNum = Prod.map id (splice n rest ending) i.readNum := by
  have hbytes : line i.bytes <+: i.bytes := line_prefix i.bytes
  have hle : (line i.bytes).length + n ≤ i.bytes.length := by
    simp only [readNum, advance, List.length_drop] at h
    omega
  have hmem := mem_take_of_line_length hn hle
  have hline : line (i.splice n rest ending).bytes = line i.bytes := by
    rw [splice, line_append_of_mem hmem]
    conv => rhs; rw [← List.take_append_drop (i.bytes.length - n) i.bytes]
    rw [line_append_of_mem hmem]
  rw [readNum_of_over (.inl (List.mem_of_mem_take hmem)),
    readNum_of_over (.inl (List.mem_append_left rest hmem)), hline, advance_splice rest ending hle]
  rfl

theorem readChar_splice (hn : 0 < n) (h : n ≤ i.readChar.2.bytes.length) :
    (i.splice n rest ending).readChar = Prod.map id (splice n rest ending) i.readChar := by
  cases hbytes : i.bytes with
  | nil =>
    have hle := i.leaves_readChar.length_le
    rw [hbytes, List.length_nil] at hle
    omega
  | cons b tail =>
    cases hw : width? b with
    | none =>
      rw [readChar_of_width_eq_none hbytes hw] at h ⊢
      have hle : 1 + n ≤ i.bytes.length := by
        rw [advance, List.length_drop] at h
        omega
      obtain ⟨tail', htail⟩ := exists_bytes_splice rest ending hbytes hle
      rw [readChar_of_width_eq_none htail hw, advance_splice rest ending hle]
      rfl
    | some width =>
      rw [snd_readChar_of_width hbytes hw, advance, List.length_drop] at h
      have hle : width + n ≤ i.bytes.length := by omega
      have hpos := width_pos hw
      obtain ⟨tail', htail⟩ := exists_bytes_splice rest ending hbytes (n := n) (by omega)
      have hlen : width ≤ (i.splice n rest ending).bytes.length := by
        rw [splice, List.length_append, List.length_take]
        omega
      rw [readChar_of_width_le hbytes hw (by omega), readChar_of_width_le htail hw hlen,
        take_splice rest ending hle, advance_splice rest ending hle]
      rfl

end Input

/-- A read that leaves `n` bytes or more has not seen them. -/
theorem Operation.source_splice {o : Operation} {source : Input → Except Fault Int64 × Input}
    (ho : o.source? = some source) {i : Input} {n : Nat} (hn : 0 < n)
    (h : n ≤ (source i).2.bytes.length) (rest : List UInt8) (ending : InputEnd) :
    source (i.splice n rest ending) = Prod.map id (Input.splice n rest ending) (source i) := by
  cases o <;> cases ho
  case readChar =>
    simp only [Input.readChar_splice rest ending hn h]
    rfl
  case readNum => exact Input.readNum_splice rest ending hn h

/-! ## Runs -/

/-- A move that leaves `n` bytes or more has not seen them. -/
theorem Program.move_splice {p : Program} {s : State} {n : Nat} (hn : 0 < n)
    (h : n ≤ (p.move s).state.input.bytes.length) (rest : List UInt8) (ending : InputEnd) :
    p.move (s.mapInput (Input.splice n rest ending)) =
      (p.move s).map (State.mapInput (Input.splice n rest ending)) := by
  apply move_mapInput
  intro i source hi hsource hflush
  rw [move_of_get? hi, Step.state_move, Instruction.input_execute, hsource] at h
  simp only [hflush, ↓reduceIte] at h
  cases i with
  | push _ | mark _ | branch _ _ => cases hsource
  | op o => exact Operation.source_splice hsource hn h rest ending

/-- The input of a move leaves that of the ending. -/
theorem System.Ends.leaves_move {p : Program} {s t : State} {e : Ending} (h : Ends p.move s e t) :
    (p.move s).state.input.Leaves t.input := by
  cases h with
  | done h =>
    rw [h]
    exact .refl _
  | next h ht =>
    rw [h]
    exact ht.leaves

/-- **No run reads ahead.**  A run that has consumed `k` bytes of an input that is
longer than that comes to the same end, in as many turns, on every input that
starts with these bytes. -/
theorem run_reads_no_further {m : Machine} {p : Program} {fuel k : Nat} {console : Console}
    {log : Log} {r : Report} (h : m.run p fuel console log = some r)
    (hk : r.state.input.consumed = console.input.consumed + k)
    (hlt : k < console.input.bytes.length) (rest : List UInt8) (ending : InputEnd) :
    ∃ r', m.run p fuel
        { console with
          input := { console.input with bytes := console.input.bytes.take k ++ rest, ending } }
        log = some r' ∧
      r'.result = r.result ∧ r'.state.toMachine = r.state.toMachine ∧
      r'.state.output = r.state.output ∧ r'.state.input.consumed = r.state.input.consumed := by
  obtain ⟨e, t, hends, hout⟩ := Machine.ends_of_run h
  have hinput := Report.input_of_outcome hout
  obtain ⟨hadvance, -⟩ := hends.leaves.eq_advance (hinput ▸ hk)
  -- the bytes from `k` on are still there in the end, so they are there all along
  have hlen : t.input.bytes.length = console.input.bytes.length - k := by
    rw [hadvance, Input.advance, List.length_drop]
    rfl
  have hlockstep : ∀ u, System.Reaches p.move (State.initial console) u →
      p.move (u.mapInput (Input.splice (console.input.bytes.length - k) rest ending)) =
        (p.move u).map (State.mapInput (Input.splice (console.input.bytes.length - k) rest
          ending)) := by
    intro u hu
    have hle := (hends.of_reaches hu).leaves_move.length_le
    exact Program.move_splice (by omega) (hlen ▸ hle) rest ending
  have hrun := Machine.outcome_run_mapInput hlockstep m fuel log
  have hsplice : console.input.splice (console.input.bytes.length - k) rest ending =
      { console.input with bytes := console.input.bytes.take k ++ rest, ending } := by
    rw [Input.splice, Nat.sub_sub_self (Nat.le_of_lt hlt)]
  rw [h, Option.map_some, hsplice] at hrun
  obtain ⟨r', hr', houtcome⟩ := Option.map_eq_some_iff.1 hrun
  refine ⟨r', hr', ?_, ?_, ?_, ?_⟩
  · exact congrArg Outcome.result houtcome
  · exact congrArg (fun o => o.state.toMachine) houtcome
  · exact congrArg (fun o => o.state.output) houtcome
  · exact congrArg (fun o => o.state.input.consumed) houtcome

namespace CharThenNumber

def program : Program := Program.ofList [.op .readChar, .op .readNum]

/-- A character of two bytes, the line of `42`, and two bytes that are not read. -/
def console : Console := { input := .ofBytes [0xC3, 0xA9, 0x34, 0x32, 0x0A, 0x78, 0x79] }

/-- It makes no difference if a byte that spells nothing comes next, and a failure
behind it. -/
theorem stops_behind_line :
    ∃ r, Machine.run {} program 3 console ⟨.warn, #[]⟩ = some r ∧
      r.state.input.consumed = console.input.consumed + 5 ∧ 5 < console.input.bytes.length ∧
      r.state.stack = [42, 233] ∧
      ∃ r', Machine.run {} program 3
          { console with
            input :=
              { console.input with
                bytes := console.input.bytes.take 5 ++ [0xFF], ending := .broken } }
          ⟨.warn, #[]⟩ = some r' ∧
        r'.result = r.result ∧ r'.state.toMachine = r.state.toMachine ∧
        r'.state.output = r.state.output ∧ r'.state.input.consumed = r.state.input.consumed := by
  obtain ⟨r, hr, hk, hstack⟩ : ∃ r, Machine.run {} program 3 console ⟨.warn, #[]⟩ = some r ∧
      r.state.input.consumed = console.input.consumed + 5 ∧ r.state.stack = [42, 233] :=
    ⟨_, rfl, rfl, rfl⟩
  have hlt : 5 < console.input.bytes.length := by decide
  exact ⟨r, hr, hk, hlt, hstack, run_reads_no_further hr hk hlt [0xFF] .broken⟩

end CharThenNumber

end Whitespace
