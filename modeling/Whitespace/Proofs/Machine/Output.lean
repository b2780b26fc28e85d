import Whitespace.Proofs.Machine.Input
import Whitespace.Proofs.Machine.Trace

/-!
# Output

An instruction does to the output no more than to write some bytes or to flush it
before a read (`Instruction.output_execute`).  So along an execution the output
grows at its end and never loses a byte or a flush (`System.Ends.grows`), and no
flush comes before an earlier one (`Output.Ordered`).

A change of the output goes along with every instruction whose writing and flushing
it goes along with (`Instruction.execute_mapOutput`).  An output that fails does
not, so its run goes along with the other one up to an instruction and stops there
(`System.run_map_or_stops`).
-/

namespace Whitespace

namespace Output

/-! ## Growing outputs -/

/-- What has been written and flushed stays, and what comes later comes behind it. -/
structure Grows (o o' : Output) : Prop where
  written : o.written.toList <+: o'.written.toList
  flushes : ∃ later, o'.flushes.toList = o.flushes.toList ++ later ∧
    ∀ f ∈ later, o.written.size ≤ f
  writeLimit : o'.writeLimit = o.writeLimit
  flushLimit : o'.flushLimit = o.flushLimit

/-- Every flush comes behind the earlier ones, and nothing is flushed that is not
written. -/
def Ordered (o : Output) : Prop := (o.flushes.toList ++ [o.written.size]).Pairwise (· ≤ ·)

variable {o o' o'' : Output}

namespace Grows

theorem refl (o : Output) : Grows o o :=
  ⟨List.prefix_refl _, ⟨[], (List.append_nil _).symm, nofun⟩, rfl, rfl⟩

theorem size_le (h : Grows o o') : o.written.size ≤ o'.written.size := by
  have hlen := h.written.length_le
  rwa [Array.length_toList, Array.length_toList] at hlen

theorem take_eq (h : Grows o o') {n : Nat} (hn : n ≤ o.written.size) :
    o'.written.toList.take n = o.written.toList.take n := by
  obtain ⟨rest, hrest⟩ := h.written
  rw [← hrest, List.take_append_of_le_length (by rwa [Array.length_toList])]

theorem trans (h : Grows o o') (h' : Grows o' o'') : Grows o o'' := by
  obtain ⟨later, hlater, hle⟩ := h.flushes
  obtain ⟨later', hlater', hle'⟩ := h'.flushes
  refine ⟨h.written.trans h'.written, ⟨later ++ later', ?_, ?_⟩, ?_, ?_⟩
  · rw [hlater', hlater, List.append_assoc]
  · intro f hf
    rcases List.mem_append.1 hf with hf | hf
    · exact hle f hf
    · exact Nat.le_trans h.size_le (hle' f hf)
  · rw [h'.writeLimit, h.writeLimit]
  · rw [h'.flushLimit, h.flushLimit]

end Grows

theorem grows_write (o : Output) (bytes : List UInt8) : Grows o (o.write bytes).2 := by
  refine ⟨?_, ⟨[], ?_, nofun⟩, ?_, ?_⟩
  · rw [written_write]
    exact List.prefix_append _ _
  · rw [flushes_write, List.append_nil]
  all_goals rcases o with ⟨written, flushes, _ | limit, flushLimit⟩ <;> rfl

theorem grows_flush (o : Output) : Grows o o.flush.2 := by
  by_cases h : o.canFlush = true
  · rw [flush_of_canFlush h]
    refine ⟨List.prefix_refl _, ⟨[o.written.size], Array.toList_push .., ?_⟩, rfl, rfl⟩
    intro f hf
    exact Nat.le_of_eq (List.mem_singleton.1 hf).symm
  · rw [flush_of_not_canFlush h]
    exact .refl o

namespace Ordered

theorem empty {writeLimit flushLimit : Option Nat} :
    Ordered { writeLimit, flushLimit } := List.pairwise_singleton _ _

theorem le_size (h : Ordered o) : ∀ f ∈ o.flushes.toList, f ≤ o.written.size := by
  intro f hf
  exact (List.pairwise_append.1 h).2.2 f hf _ List.mem_cons_self

theorem write (h : Ordered o) (bytes : List UInt8) : Ordered (o.write bytes).2 := by
  have hsize := (o.grows_write bytes).size_le
  rw [Ordered, List.pairwise_append] at h ⊢
  rw [flushes_write]
  refine ⟨h.1, List.pairwise_singleton _ _, ?_⟩
  intro f hf n hn
  rw [List.mem_singleton.1 hn]
  exact Nat.le_trans (h.2.2 f hf _ List.mem_cons_self) hsize

theorem flush (h : Ordered o) : Ordered o.flush.2 := by
  by_cases hcan : o.canFlush = true
  · rw [flush_of_canFlush hcan, Ordered, Array.toList_push, List.pairwise_append]
    refine ⟨h, List.pairwise_singleton _ _, ?_⟩
    intro f hf n hn
    rw [List.mem_singleton.1 hn]
    rcases List.mem_append.1 hf with hf | hf
    · exact h.le_size f hf
    · exact Nat.le_of_eq (List.mem_singleton.1 hf)
  · rw [flush_of_not_canFlush hcan]
    exact h

end Ordered

end Output

/-! ## Changing the output -/

theorem State.output_write (s : State) (bytes : List UInt8) :
    (s.write bytes).state.output = (s.output.write bytes).2 := by
  rw [write_eq]
  rcases s.output.write bytes with ⟨_ | _, output⟩ <;> rfl

def State.mapOutput (χ : Output → Output) (s : State) : State := { s with output := χ s.output }

theorem State.change_mapOutput (χ : Output → Output) : Change (mapOutput χ) [] id χ where
  stack s := (List.append_nil s.stack).symm
  heap _ := rfl
  input _ := rfl
  output _ := rfl
  setStack s stack := by
    rw [List.append_nil]
    rfl
  setHeap _ _ := rfl
  setInput _ _ := rfl
  setOutput _ _ := rfl

theorem State.renumbers_mapOutput (χ : Output → Output) : Renumbers (mapOutput χ) id where
  pc _ := rfl
  calls s := s.calls.map_id.symm
  setControl s pc calls := by
    rw [List.map_id]
    rfl

namespace Instruction

variable {i : Instruction Target} {s : State} {χ : Output → Output}

/-- A change of the output goes along with an instruction, if it goes along with
what the instruction writes and flushes. -/
theorem execute_mapOutput
    (hwrite : ∀ bytes, i.written? s = some bytes →
      (χ s.output).write bytes = Prod.map id χ (s.output.write bytes))
    (hflush : ∀ source, i.source? = some source →
      (χ s.output).flush = Prod.map id χ s.output.flush) :
    i.execute (s.mapOutput χ) = (i.execute s).map (State.mapOutput χ) := by
  have hchange := execute_change (State.change_mapOutput χ) (State.renumbers_mapOutput χ)
    (.inl rfl) hwrite hflush fun source _ _ => (congrFun Prod.map_id _).symm
  rwa [mapTarget_relocate_id] at hchange

/-- What is written is the topmost value, and it is gone. -/
theorem execute_of_written? {bytes : List UInt8} (h : i.written? s = some bytes) :
    i.execute s = State.write { s with stack := s.stack.tail } bytes := by
  cases i with
  | push _ | mark _ | branch _ _ => cases h
  | op o =>
    rw [written?, Operation.written?] at h
    obtain ⟨text, htext, h⟩ := Option.bind_eq_some_iff.1 h
    obtain ⟨v, hv, rfl⟩ := Option.map_eq_some_iff.1 h
    obtain ⟨stack, hstack⟩ := List.head?_eq_some_iff.1 hv
    rw [execute, Operation.execute_of_text? htext, State.pop_of_cons hstack, hstack, List.tail_cons]

theorem execute_of_source? {source : Input → Except Fault Int64 × Input}
    (h : i.source? = some source) (s : State) :
    i.execute s = s.flush fun t => t.read source id := by
  cases i with
  | push _ | mark _ | branch _ _ => cases h
  | op o => exact Operation.execute_of_source? h s

theorem written?_of_source? {source : Input → Except Fault Int64 × Input}
    (h : i.source? = some source) (s : State) : i.written? s = none := by
  cases i with
  | push _ | mark _ | branch _ _ => cases h
  | op o => cases o <;> cases h <;> rfl

/-- Whether an instruction reads from the input. -/
def isRead : Instruction Target → Bool
  | op .readChar | op .readNum => true
  | _ => false

theorem isRead_eq_isSome (i : Instruction Target) : i.isRead = i.source?.isSome := by
  cases i with
  | push _ | mark _ | branch _ _ => rfl
  | op o => cases o <;> rfl

theorem isRead_iff {i : Instruction Target} :
    i.isRead = true ↔ ∃ source, i.source? = some source := by
  rw [isRead_eq_isSome, Option.isSome_iff_exists]

/-- **What an instruction does to the output**: it writes, it flushes before it
reads, or it leaves it alone. -/
theorem output_execute (i : Instruction Target) (s : State) :
    (i.execute s).state.output =
      match i.written? s with
      | some bytes => (s.output.write bytes).2
      | none => if i.isRead then s.output.flush.2 else s.output := by
  rw [isRead_eq_isSome]
  cases hwritten : i.written? s with
  | some bytes =>
    rw [execute_of_written? hwritten, State.output_write]
  | none =>
    cases hsource : i.source? with
    | some source =>
      rw [execute_of_source? hsource]
      by_cases hflush : s.output.canFlush = true
      · rw [State.flush_of_canFlush hflush, State.read]
        rcases source s.input with ⟨_ | _, input⟩ <;> rfl
      · rw [State.flush_of_not_canFlush hflush, Output.flush_of_not_canFlush hflush]
        rfl
    | none =>
      -- what goes along with the change of any output to this one has this one
      have hmap : i.execute (s.mapOutput fun _ => s.output) =
          (i.execute s).map (State.mapOutput fun _ => s.output) := by
        apply execute_mapOutput
        · intro bytes h
          rw [hwritten] at h
          cases h
        · intro source h
          rw [hsource] at h
          cases h
      have hstate := congrArg (fun step => step.state.output) hmap
      rw [Step.state_map] at hstate
      exact hstate

end Instruction

/-! ## Moves and executions -/

namespace Program

/-- What the next instruction writes, if it gets so far. -/
def written? (p : Program) (s : State) : Option (List UInt8) :=
  (p.get? s.pc).bind fun i => i.written? s

/-- Whether the next instruction reads from the input. -/
def readsNext (p : Program) (s : State) : Bool := (p.get? s.pc).any Instruction.isRead

variable {p : Program} {s : State} {χ : Output → Output}

theorem readsNext_iff : p.readsNext s = true ↔
    ∃ i source, p.get? s.pc = some i ∧ i.source? = some source := by
  simp only [readsNext, Option.any_eq_true, Instruction.isRead_iff]
  constructor
  · rintro ⟨i, hi, source, hsource⟩
    exact ⟨i, source, hi, hsource⟩
  · rintro ⟨i, source, hi, hsource⟩
    exact ⟨i, hi, source, hsource⟩

theorem move_of_written? {bytes : List UInt8} (h : p.written? s = some bytes) :
    p.move s = (State.write { s with pc := s.pc + 1, stack := s.stack.tail } bytes).move := by
  obtain ⟨i, hi, hwritten⟩ := Option.bind_eq_some_iff.1 h
  rw [move_of_get? hi]
  congr 1
  exact Instruction.execute_of_written? (s := { s with pc := s.pc + 1 }) hwritten

/-- A read comes to an end if the output cannot be flushed before. -/
theorem move_of_not_canFlush (h : p.readsNext s = true) (hcan : ¬ s.output.canFlush = true) :
    p.move s = .done (.fault (.stream .flushFailed)) { s with pc := s.pc + 1 } := by
  obtain ⟨i, source, hi, hsource⟩ := readsNext_iff.1 h
  rw [move_of_get? hi, Instruction.execute_of_source? hsource,
    State.flush_of_not_canFlush (s := { s with pc := s.pc + 1 }) hcan]
  rfl

theorem move_mapOutput
    (hwrite : ∀ bytes, p.written? s = some bytes →
      (χ s.output).write bytes = Prod.map id χ (s.output.write bytes))
    (hflush : p.readsNext s = true → (χ s.output).flush = Prod.map id χ s.output.flush) :
    p.move (s.mapOutput χ) = (p.move s).map (State.mapOutput χ) := by
  refine move_map (congrFun Option.map_id _).symm ?_
  intro i hi
  refine Instruction.execute_mapOutput (s := { s with pc := s.pc + 1 }) ?_ ?_
  · intro bytes h
    refine hwrite bytes ?_
    rw [written?, hi]
    exact h
  · intro source h
    exact hflush (readsNext_iff.2 ⟨i, source, hi, h⟩)

theorem written?_of_readsNext (h : p.readsNext s = true) : p.written? s = none := by
  obtain ⟨i, source, hi, hsource⟩ := readsNext_iff.1 h
  rw [written?, hi, Option.bind_some, Instruction.written?_of_source? hsource]

theorem output_move (p : Program) (s : State) :
    (p.move s).state.output =
      match p.written? s with
      | some bytes => (s.output.write bytes).2
      | none => if p.readsNext s then s.output.flush.2 else s.output := by
  cases hi : p.get? s.pc with
  | none =>
    rw [move_of_get?_eq_none hi, written?, readsNext, hi]
    rfl
  | some i =>
    rw [move_of_get? hi, Step.state_move, Instruction.output_execute, written?, readsNext, hi]
    rfl

theorem grows_move (p : Program) (s : State) : s.output.Grows (p.move s).state.output := by
  rw [output_move]
  cases p.written? s with
  | some bytes => exact s.output.grows_write bytes
  | none =>
    dsimp only
    split
    · exact s.output.grows_flush
    · exact .refl _

theorem ordered_move (p : Program) (h : s.output.Ordered) :
    (p.move s).state.output.Ordered := by
  rw [output_move]
  cases p.written? s with
  | some bytes => exact h.write bytes
  | none =>
    dsimp only
    split
    · exact h.flush
    · exact h

end Program

namespace System

/-- **An execution writes at the end of its output.** -/
theorem Ends.grows {p : Program} {s t : State} {e : Ending} (h : Ends p.move s e t) :
    s.output.Grows t.output :=
  h.relates (R := fun u v => u.output.Grows v.output) p.grows_move fun _ _ _ => .trans

theorem Ends.grows_move {p : Program} {s t : State} {e : Ending} (h : Ends p.move s e t) :
    (p.move s).state.output.Grows t.output := by
  cases h with
  | done h =>
    rw [h]
    exact .refl _
  | next h ht =>
    rw [h]
    exact ht.grows

theorem Ends.ordered {p : Program} {s t : State} {e : Ending} (h : Ends p.move s e t)
    (hs : s.output.Ordered) : t.output.Ordered := by
  refine h.relates (R := fun u v => u.output.Ordered → v.output.Ordered) ?_ ?_ hs
  · intro u
    exact p.ordered_move
  · intro u v w huv hvw hu
    exact hvw (huv hu)

/-! ## Executions that stop early -/

/-- The second system goes along with the first one through the states `before`
and ends in what becomes of `u`, where the first one has `k` turns left. -/
structure StopsAt (f g : System) (φ : State → State) (fuel : Nat) (s : State)
    (r : Ending × State) (before : List State) (u : State) (k : Nat) (r' : Ending × State) :
    Prop where
  visited_eq : visited f fuel s = before ++ visited f k u
  rest : run f k u = some r
  stops : run g fuel (φ s) = some r'
  visited_stops : visited g fuel (φ s) = (before ++ [u]).map φ

variable {f g : System} {φ : State → State}

theorem StopsAt.cons {fuel k : Nat} {s t u : State} {r r' : Ending × State} {before : List State}
    (hs : f s = .next t) (hlock : g (φ s) = .next (φ t))
    (h : StopsAt f g φ fuel t r before u k r') :
    StopsAt f g φ (fuel + 1) s r (s :: before) u k r' where
  visited_eq := by rw [visited, hs, List.cons_append, ← h.visited_eq]
  rest := h.rest
  stops := by rw [run, hlock]; exact h.stops
  visited_stops := by
    rw [visited, hlock, List.cons_append, List.map_cons, ← h.visited_stops]

/-- **Lockstep up to a stop.**  As long as `I` holds, the second system goes along
with the first one and keeps `I`, or it stops.  So it goes along to the end, or up
to a state from where it stops. -/
theorem run_map_or_stops {I : State → Prop} {B : State → Ending → State → Prop}
    (h : ∀ u, I u → (g (φ u) = (f u).map φ ∧ I (f u).state) ∨
      ∃ e t, g (φ u) = .done e t ∧ B u e t)
    {fuel : Nat} {s : State} {r : Ending × State} (hs : I s) (hr : run f fuel s = some r) :
    (run g fuel (φ s) = some (r.1, φ r.2) ∧ visited g fuel (φ s) = (visited f fuel s).map φ ∧
        I r.2) ∨
      ∃ before u k e t, StopsAt f g φ fuel s r before u k (e, t) ∧ I u ∧ B u e t := by
  induction fuel generalizing s with
  | zero => cases hr
  | succ fuel ih =>
    rcases h s hs with ⟨hlock, hkept⟩ | ⟨e, t, hstop, hb⟩
    · rw [run] at hr
      cases hmove : f s with
      | next t =>
        rw [hmove] at hr hlock hkept
        rcases ih hkept hr with ⟨hrun, hvisited, hend⟩ | ⟨before, u, k, e, t, hstops, hu⟩
        · refine .inl ⟨?_, ?_, hend⟩
          · rw [run, hlock]
            exact hrun
          · rw [visited, visited, hlock, hmove, List.map_cons]
            exact congrArg _ hvisited
        · exact .inr ⟨s :: before, u, k, e, t, hstops.cons hmove hlock, hu⟩
      | done e t =>
        rw [hmove] at hr hlock hkept
        cases hr
        refine .inl ⟨?_, ?_, hkept⟩
        · rw [run, hlock]
          rfl
        · rw [visited, visited, hlock, hmove]
          rfl
    · refine .inr ⟨[], s, fuel + 1, e, t, ⟨rfl, hr, ?_, ?_⟩, hs, hb⟩
      · rw [run, hstop]
      · rw [visited, hstop]
        rfl

end System

/-! ## Runs -/

def Outcome.mapOutput (χ : Output → Output) (o : Outcome) : Outcome :=
  ⟨o.result, o.state.mapOutput χ⟩

theorem Ending.close_mapOutput (e : Ending) {s : State} {χ : Output → Output}
    (h : (χ s.output).flush = Prod.map id χ s.output.flush) :
    e.close (s.mapOutput χ) = (e.close s).mapOutput χ := by
  have hflush : (s.mapOutput χ).output.flush = Prod.map id χ s.output.flush := h
  unfold close
  rw [hflush]
  cases e <;> rfl

end Whitespace
