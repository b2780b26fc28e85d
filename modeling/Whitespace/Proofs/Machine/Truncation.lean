import Whitespace.Proofs.Machine.Output

/-!
# Truncation

A writer that takes `n` bytes and no more does not show before a run has written
`n` bytes (`Program.move_limitWrites`).  The write that crosses this limit is cut,
and the run stops there.  All that it has written until then is the first `n` bytes
of what it would have written, and its flushes are the ones that it would have made
so far (`failing_writer_truncates`).
-/

namespace Whitespace

namespace Output

/-- The same output with a writer that takes `n` bytes in all. -/
def limitWrites (n : Nat) (o : Output) : Output := { o with writeLimit := some n }

variable {n : Nat} {o : Output} {bytes : List UInt8}

theorem size_write_of_writeLimit_eq_none (h : o.writeLimit = none) (bytes : List UInt8) :
    (o.write bytes).2.written.size = o.written.size + bytes.length := by
  rw [← Array.length_toList, written_write, h, List.length_append, Array.length_toList]

theorem limitWrites_write_of_le (h : o.writeLimit = none)
    (hn : o.written.size + bytes.length ≤ n) :
    (o.limitWrites n).write bytes = Prod.map id (limitWrites n) (o.write bytes) := by
  have hroom : bytes.length ≤ n - o.written.size := by omega
  rw [write_of_writeLimit_eq_none h]
  simp only [limitWrites, write, if_pos hroom, List.take_of_length_le hroom]
  rfl

/-- A write that crosses the limit is cut there, and fails. -/
theorem limitWrites_write_of_lt (h : o.writeLimit = none) (hle : o.written.size ≤ n)
    (hn : n < o.written.size + bytes.length) :
    ∃ cut, (o.limitWrites n).write bytes = (.error .writeFailed, cut) ∧
      cut.written.toList = (o.write bytes).2.written.toList.take n ∧
      cut.flushes = o.flushes ∧ cut.flushLimit = o.flushLimit := by
  have hroom : ¬ bytes.length ≤ n - o.written.size := by omega
  have htake : o.written.toList.take n = o.written.toList :=
    List.take_of_length_le (by rwa [Array.length_toList])
  refine ⟨((o.limitWrites n).write bytes).2, ?_, ?_, flushes_write .., rfl⟩
  · simp only [limitWrites, write, if_neg hroom]
  · rw [written_write, written_write, h, List.take_append, htake, Array.length_toList]
    rfl

theorem limitWrites_flush (n : Nat) (o : Output) :
    (o.limitWrites n).flush = Prod.map id (limitWrites n) o.flush := by
  have hcan : (o.limitWrites n).canFlush = o.canFlush := rfl
  unfold flush
  rw [hcan]
  split <;> rfl

/-- An output that never fails, and on which the limit does not show yet. -/
structure Within (n : Nat) (o : Output) : Prop where
  writeLimit : o.writeLimit = none
  flushLimit : o.flushLimit = none
  ordered : o.Ordered
  size_le : o.written.size ≤ n

theorem Within.grows {o' : Output} (h : Within n o) (hgrows : o.Grows o') (hordered : o'.Ordered)
    (hle : o'.written.size ≤ n) : Within n o' where
  writeLimit := by rw [hgrows.writeLimit, h.writeLimit]
  flushLimit := by rw [hgrows.flushLimit, h.flushLimit]
  ordered := hordered
  size_le := hle

/-- The flushes so far are those that are not behind the limit, if the output grows
from one that is larger than that. -/
theorem Grows.filter_flushes {o' : Output} (h : Grows o o') (hn : n < o.written.size)
    (hle : ∀ f ∈ o.flushes.toList, f ≤ n) :
    o'.flushes.toList.filter (· ≤ n) = o.flushes.toList := by
  obtain ⟨later, hlater, hbehind⟩ := h.flushes
  rw [hlater, List.filter_append, List.filter_eq_self.2, List.filter_eq_nil_iff.2, List.append_nil]
  · intro f hf
    have := hbehind f hf
    simp only [decide_eq_true_eq]
    omega
  · intro f hf
    simpa only [decide_eq_true_eq] using hle f hf

end Output

/-- How a run stops in a state whose next move would write across the limit. -/
structure State.CutAt (p : Program) (n : Nat) (u : State) (e : Ending) (t : State) : Prop where
  ending : e = .fault (.stream .writeFailed)
  lt_size : n < (p.move u).state.output.written.size
  written : t.output.written.toList = (p.move u).state.output.written.toList.take n
  flushes : t.output.flushes = (p.move u).state.output.flushes
  flushes_le : ∀ f ∈ (p.move u).state.output.flushes.toList, f ≤ n
  flushLimit : t.output.flushLimit = none

namespace Program

variable {p : Program} {n : Nat} {u : State}

theorem move_limitWrites_of_le (h : u.output.Within n)
    (hn : ∀ bytes, p.written? u = some bytes → u.output.written.size + bytes.length ≤ n) :
    p.move (u.mapOutput (.limitWrites n)) = (p.move u).map (State.mapOutput (.limitWrites n)) ∧
      (p.move u).state.output.Within n := by
  refine ⟨?_, h.grows (p.grows_move u) (p.ordered_move h.ordered) ?_⟩
  · apply move_mapOutput
    · intro bytes hwritten
      exact Output.limitWrites_write_of_le h.writeLimit (hn bytes hwritten)
    · intro _
      exact Output.limitWrites_flush n u.output
  · rw [output_move]
    cases hwritten : p.written? u with
    | some bytes =>
      have hle := hn bytes hwritten
      dsimp only
      rw [Output.size_write_of_writeLimit_eq_none h.writeLimit]
      exact hle
    | none =>
      dsimp only
      split
      · rw [Output.written_flush]
        exact h.size_le
      · exact h.size_le

/-- A write across the limit is the end of the run. -/
theorem exists_cutAt (h : u.output.Within n) {bytes : List UInt8}
    (hwritten : p.written? u = some bytes) (hn : n < u.output.written.size + bytes.length) :
    ∃ e t, p.move (u.mapOutput (.limitWrites n)) = .done e t ∧ u.CutAt p n e t := by
  obtain ⟨cut, hcut, hbytes, hflushes, hlimit⟩ :=
    Output.limitWrites_write_of_lt h.writeLimit h.size_le hn
  have hfull : (p.move u).state.output = (u.output.write bytes).2 := by
    rw [output_move, hwritten]
  have hwritten' : p.written? (u.mapOutput (.limitWrites n)) = some bytes := hwritten
  have hcut' : (u.mapOutput (.limitWrites n)).output.write bytes = (.error .writeFailed, cut) :=
    hcut
  refine ⟨.fault (.stream .writeFailed),
    { u with pc := u.pc + 1, stack := u.stack.tail, output := cut }, ?_, ?_⟩
  · rw [move_of_written? hwritten', State.write_eq, hcut']
    rfl
  · refine ⟨rfl, ?_, ?_, ?_, ?_, ?_⟩
    · rw [hfull, Output.size_write_of_writeLimit_eq_none h.writeLimit]
      exact hn
    · rw [hfull]
      exact hbytes
    · rw [hfull, Output.flushes_write]
      exact hflushes
    · rw [hfull, Output.flushes_write]
      intro f hf
      exact Nat.le_trans (h.ordered.le_size f hf) h.size_le
    · exact hlimit.trans h.flushLimit

/-- **One move with a limit** is the move without it, or the write that crosses the
limit. -/
theorem move_limitWrites (h : u.output.Within n) :
    (p.move (u.mapOutput (.limitWrites n)) = (p.move u).map (State.mapOutput (.limitWrites n)) ∧
        (p.move u).state.output.Within n) ∨
      ∃ e t, p.move (u.mapOutput (.limitWrites n)) = .done e t ∧ u.CutAt p n e t := by
  cases hwritten : p.written? u with
  | none =>
    refine .inl (move_limitWrites_of_le h ?_)
    intro bytes hbytes
    rw [hwritten] at hbytes
    cases hbytes
  | some bytes =>
    rcases Nat.lt_or_ge n (u.output.written.size + bytes.length) with hlt | hle
    · exact .inr (exists_cutAt h hwritten hlt)
    · refine .inl (move_limitWrites_of_le h ?_)
      intro bytes' hbytes
      rw [hwritten] at hbytes
      cases hbytes
      exact hle

end Program

/-! ## Runs -/

/-- What is left by a run that was stopped, beside the output that it would have had. -/
theorem State.CutAt.close {p : Program} {n : Nat} {u t : State} {e : Ending} {o : Output}
    (h : u.CutAt p n e t) (hgrows : (p.move u).state.output.Grows o) :
    (e.close t).result = .error (.stream .writeFailed) ∧
      (e.close t).state.output.written.toList = o.written.toList.take n ∧
      (e.close t).state.output.flushes.toList = o.flushes.toList.filter (· ≤ n) ++ [n] := by
  have hlt := h.lt_size
  have hcan : t.output.canFlush = true := by
    rw [Output.canFlush, h.flushLimit]
  have hsize : t.output.written.size = n := by
    rw [← Array.length_toList, h.written, List.length_take, Array.length_toList]
    omega
  refine ⟨?_, ?_, ?_⟩
  · rw [h.ending]
    rfl
  · rw [e.state_close, Output.written_flush, h.written, hgrows.take_eq (Nat.le_of_lt hlt)]
  · rw [e.state_close, Output.flushes_flush, if_pos hcan, Array.toList_push, h.flushes, hsize,
      hgrows.filter_flushes hlt h.flushes_le]

/-- **A failing writer only truncates.**  A run whose writer takes `n` bytes comes to
an end in as many turns as the run whose writer takes all, or fewer.  Both agree if
the output is no longer than that.  Otherwise the run fails to write, its output is
cut behind `n` bytes, and it has made the flushes up to there and the last one. -/
theorem failing_writer_truncates {m : Machine} {p : Program} {fuel : Nat} {input : Input}
    {log : Log} {r : Report} (h : m.run p fuel ⟨input, {}⟩ log = some r) (n : Nat) :
    ∃ r', m.run p fuel ⟨input, { writeLimit := some n }⟩ log = some r' ∧
      (r.state.output.written.size ≤ n →
        r'.result = r.result ∧ r'.state.toMachine = r.state.toMachine ∧
        r'.state.input = r.state.input ∧
        r'.state.output.written = r.state.output.written ∧
        r'.state.output.flushes = r.state.output.flushes) ∧
      (n < r.state.output.written.size →
        r'.result = .error (.stream .writeFailed) ∧
        r'.state.output.written.toList = r.state.output.written.toList.take n ∧
        r'.state.output.flushes.toList = r.state.output.flushes.toList.filter (· ≤ n) ++ [n]) := by
  obtain ⟨e, t, hrun, hout⟩ := Machine.system_run_of_run h
  have houtput : r.state.output = t.output.flush.2 := by rw [Report.state_of_outcome hout]
  have hinitial : (State.initial ⟨input, {}⟩).output.Within n :=
    ⟨rfl, rfl, Output.Ordered.empty, Nat.zero_le n⟩
  rcases System.run_map_or_stops (fun _ => p.move_limitWrites) hinitial hrun with
    ⟨hlimited, -, hwithin⟩ | ⟨before, u, k, e', t', hstops, -, hcut⟩
  -- the limit has not shown up to the end, so it does not show in the last flush either
  · obtain ⟨r', hr', hout'⟩ := Machine.exists_run_of_system_run hlimited m log
    rw [e.close_mapOutput (Output.limitWrites_flush n t.output), ← hout] at hout'
    refine ⟨r', hr', ?_, ?_⟩
    · intro _
      exact ⟨congrArg Outcome.result hout', congrArg (fun o => o.state.toMachine) hout',
        congrArg (fun o => o.state.input) hout', congrArg (fun o => o.state.output.written) hout',
        congrArg (fun o => o.state.output.flushes) hout'⟩
    · intro hlt
      rw [houtput, Output.written_flush] at hlt
      exact absurd hwithin.size_le (Nat.not_le_of_lt hlt)
  · obtain ⟨r', hr', hout'⟩ := Machine.exists_run_of_system_run hstops.stops m log
    have hgrows : (p.move u).state.output.Grows r.state.output := by
      rw [houtput]
      exact (System.Ends.of_run hstops.rest).grows_move.trans t.output.grows_flush
    refine ⟨r', hr', ?_, ?_⟩
    · intro hle
      exact absurd hle (Nat.not_le_of_lt (Nat.lt_of_lt_of_le hcut.lt_size hgrows.size_le))
    · intro _
      have hclose := hcut.close hgrows
      rw [← hout'] at hclose
      exact hclose

namespace TwoCharacters

/-- Writes a character, then one that it reads, and then fails to read another. -/
def program : Program := Program.ofList
  [.push 233, .op .outChar, .op .readChar, .op .outChar, .op .readChar]

def input : Input := .ofBytes [0xC3, 0xBC]

/-- A writer that takes three bytes cuts the second character into halves. -/
theorem truncated :
    ∃ r, Machine.run {} program 5 ⟨input, {}⟩ ⟨.warn, #[]⟩ = some r ∧
      r.result = .error .inputExhausted ∧
      r.state.output.written = #[0xC3, 0xA9, 0xC3, 0xBC] ∧
      r.state.output.flushes = #[2, 4, 4] ∧
      ∃ r', Machine.run {} program 5 ⟨input, { writeLimit := some 3 }⟩ ⟨.warn, #[]⟩ = some r' ∧
        r'.result = .error (.stream .writeFailed) ∧
        r'.state.output.written.toList = [0xC3, 0xA9, 0xC3] ∧
        r'.state.output.flushes.toList = [2, 3] := by
  obtain ⟨r, hr, hresult, hwritten, hflushes⟩ :
      ∃ r, Machine.run {} program 5 ⟨input, {}⟩ ⟨.warn, #[]⟩ = some r ∧
        r.result = .error .inputExhausted ∧
        r.state.output.written = #[0xC3, 0xA9, 0xC3, 0xBC] ∧
        r.state.output.flushes = #[2, 4, 4] := ⟨_, rfl, rfl, rfl, rfl⟩
  obtain ⟨r', hr', -, hcut⟩ := failing_writer_truncates hr 3
  rw [hwritten, hflushes] at hcut
  exact ⟨r, hr, hresult, hwritten, hflushes, r', hr', hcut (by decide)⟩

end TwoCharacters

end Whitespace
