import Whitespace.Proofs.Assembly.WellFormed
import Whitespace.Proofs.Machine.Control
import Whitespace.Proofs.Machine.Trace

/-!
# Control flow

A run of a well-formed program stays inside of it (`Program.Safe`): the program
counter is at an instruction, or behind the last one if there is no exit, and
every saved return address is the place behind a call.  An exit is the only
instruction that could lead behind itself at the end of the program, and it leads
nowhere.  So a run ends where its program ends, or at an instruction that failed
(`control_flow_safe`).
-/

namespace Whitespace

namespace Program

/-- A place where a run may be. -/
structure Inside (p : Program) (n : Nat) : Prop where
  /-- It is an instruction or the end of the program. -/
  le : n ≤ p.size
  /-- No run comes to the end of a program that has an exit. -/
  lt : .op .exit ∈ p.toList → n < p.size

/-- A place where a call may return to. -/
structure ReturnAddress (p : Program) (n : Nat) : Prop where
  pos : 1 ≤ n
  le : n ≤ p.size
  call : ∃ target, p.get? (n - 1) = some (.branch .call target)

/-- A state that has not gone astray. -/
structure Safe (p : Program) (s : State) : Prop where
  /-- The next instruction is at a place where a run may be. -/
  pc : p.Inside s.pc
  /-- Every return leads back to a call. -/
  calls : ∀ n ∈ s.calls, p.ReturnAddress n

/-- How an execution from `start` that ends with `t` stands. -/
def EndsSafely (p : Program) (start t : State) : Ending → Prop
  | .exited => .op .exit ∈ p.toList ∧ t.pc = p.size
  | .ranPast => .op .exit ∉ p.toList ∧ t.pc = p.size
  | .fault f => 1 ≤ t.pc ∧ t.pc ≤ p.size ∧
    ∃ i s, p.get? (t.pc - 1) = some i ∧ System.Reaches p.move start s ∧ s.pc + 1 = t.pc ∧
      i.execute { s with pc := t.pc } = .fault f t

variable {p : Program} {i : Instruction Target} {s t : State} {n : Nat}

theorem mem_toList_of_get? (h : p.get? n = some i) : i ∈ p.toList := by
  rw [get?_eq_getElem?] at h
  exact List.mem_of_getElem? h

theorem get?_eq_none_iff : p.get? n = none ↔ p.size ≤ n := by
  rw [get?_eq_getElem?, size_eq_length]
  exact List.getElem?_eq_none_iff

theorem mem_targets_of_get? {kind : Branch} {target : Target}
    (h : p.get? n = some (.branch kind target)) : target ∈ p.targets :=
  List.mem_filterMap.2 ⟨_, mem_toList_of_get? h, rfl⟩

theorem inside_zero (p : Program) : p.Inside 0 where
  le := Nat.zero_le _
  lt hexit := by
    rw [size_eq_length]
    exact List.length_pos_of_mem hexit

theorem safe_initial (p : Program) (console : Console) : p.Safe (State.initial console) where
  pc := p.inside_zero
  calls _ hn := absurd hn List.not_mem_nil

/-- **Every step keeps the ways back**, whatever the targets of the program. -/
theorem returnAddress_next (hs : ∀ n ∈ s.calls, p.ReturnAddress n) (h : p.move s = .next t) :
    ∀ n ∈ t.calls, p.ReturnAddress n := by
  obtain ⟨i, hi, hstep⟩ := move_eq_next h
  cases Instruction.control_of_next hstep with
  | on _ hcalls | jump _ _ hcalls =>
    rw [hcalls]
    exact hs
  | @call target hbranch _ hcalls =>
    subst hbranch
    intro n hn
    rw [hcalls] at hn
    rcases List.mem_cons.1 hn with rfl | hn
    · exact ⟨Nat.le_add_left 1 s.pc, lt_size_of_get? hi, target, hi⟩
    · exact hs n hn
  | ret _ hcalls =>
    intro n hn
    exact hs n (hcalls ▸ List.mem_cons_of_mem _ hn)

/-! ## Places that are inside -/

namespace WellFormed

variable (hp : p.WellFormed)

include hp

/-- The last instruction of a program that has an exit is that exit. -/
theorem get?_eq_exit_iff (hexit : .op .exit ∈ p.toList) :
    p.get? n = some (.op .exit) ↔ n + 1 = p.size := by
  obtain ⟨k, hk⟩ := List.mem_iff_getElem?.1 hexit
  rw [← get?_eq_getElem?] at hk
  have hlast := hp.exit_last k hk
  constructor
  · exact hp.exit_last n
  · intro hn
    have : n = k := by omega
    rwa [this]

theorem inside_succ (h : p.get? n = some i) (hi : i ≠ .op .exit) : p.Inside (n + 1) where
  le := lt_size_of_get? h
  lt hexit := by
    have hlt := lt_size_of_get? h
    have hne : n + 1 ≠ p.size := by
      intro hn
      rw [(hp.get?_eq_exit_iff hexit).2 hn] at h
      exact hi (Option.some.inj h).symm
    omega

theorem inside_returnAddress (h : p.ReturnAddress n) : p.Inside n := by
  obtain ⟨hpos, -, target, hcall⟩ := h
  have hinside := hp.inside_succ hcall nofun
  rwa [Nat.sub_add_cancel hpos] at hinside

theorem inside_target {target : Target} (h : target ∈ p.targets) : p.Inside target.index where
  le := hp.index_le target h
  lt hexit := by
    refine hp.index_lt ?_ target h
    have hpos := p.inside_zero.lt hexit
    rw [List.getLast?_eq_getElem?, ← size_eq_length, ← get?_eq_getElem?,
      hp.get?_eq_exit_iff hexit]
    omega

/-! ## Runs -/

/-- **Every step keeps a run inside.** -/
theorem safe_next (hs : p.Safe s) (h : p.move s = .next t) : p.Safe t := by
  refine ⟨?_, returnAddress_next hs.calls h⟩
  obtain ⟨i, hi, hstep⟩ := move_eq_next h
  cases Instruction.control_of_next hstep with
  | on hpc _ =>
    rw [hpc]
    exact hp.inside_succ hi (Instruction.ne_exit_of_next hstep)
  | jump hbranch hpc _ | call hbranch hpc _ =>
    subst hbranch
    rw [hpc]
    exact hp.inside_target (mem_targets_of_get? hi)
  | ret _ hcalls => exact hp.inside_returnAddress (hs.calls t.pc (hcalls ▸ List.mem_cons_self))

theorem safe_of_reaches {console : Console}
    (h : System.Reaches p.move (State.initial console) s) : p.Safe s :=
  h.invariant (p.safe_initial console) fun _ _ => hp.safe_next

/-- **An execution ends at the end of its program**, or at an instruction that
failed. -/
theorem endsSafely {console : Console} {e : Ending}
    (h : System.Ends p.move (State.initial console) e t) :
    p.EndsSafely (State.initial console) t e := by
  obtain ⟨s, hs, hlast⟩ := h.exists_last
  have hsafe := hp.safe_of_reaches hs
  rcases move_eq_done hlast with ⟨rfl, hnone, rfl⟩ | ⟨i, hi, ⟨rfl, hstep⟩ | ⟨f, rfl, hstep⟩⟩
  -- with an exit in the program the counter would have to be inside of it
  · have hge := get?_eq_none_iff.1 hnone
    refine ⟨?_, Nat.le_antisymm hsafe.pc.le hge⟩
    intro hexit
    have hlt := hsafe.pc.lt hexit
    omega
  · obtain ⟨rfl, rfl⟩ := Instruction.eq_exit_of_exit hstep
    exact ⟨mem_toList_of_get? hi, hp.exit_last s.pc hi⟩
  · have hpc : t.pc = s.pc + 1 := (Instruction.control_of_fault hstep).1
    have hlt := lt_size_of_get? hi
    refine ⟨by omega, by omega, i, s, ?_, hs, hpc.symm, ?_⟩
    · rwa [hpc, Nat.add_sub_cancel]
    · rwa [hpc]

end WellFormed

end Program

/-- **Control flow of assembled programs is safe.**  All states of a run are safe,
and a run that has stopped did so at the end of its program, through the exit if
there is one and past the last instruction otherwise, or at the instruction that
failed.  The last event of its log says which. -/
theorem control_flow_safe {source : List UInt8} {p : Program} (h : assemble source = .ok p)
    (console : Console) :
    (∀ s, System.Reaches p.move (State.initial console) s → p.Safe s) ∧
    ∀ (m : Machine) (fuel : Nat) (log : Log) (r : Report), m.run p fuel console log = some r →
      ∃ e t, p.EndsSafely (State.initial console) t e ∧
        r.outcome = e.close t ∧ r.state.pc = t.pc ∧
        r.log = log.recordAll
          ((System.visited p.move fuel (State.initial console)).filterMap p.executing? ++
            [e.event t]) := by
  have hp := wellFormed_of_assemble h
  refine ⟨?_, ?_⟩
  · intro s hs
    exact hp.safe_of_reaches hs
  · intro m fuel log r hr
    obtain ⟨e, t, hrun, hout, hlog⟩ := Machine.log_run hr
    have hclose : (e.close t).state.pc = t.pc := by cases e <;> rfl
    have hpc : r.state.pc = t.pc := by
      rw [← hclose, ← hout]
      rfl
    exact ⟨e, t, hp.endsSafely (.of_run hrun), hout, hpc, hlog⟩

/-- The countdown stays inside of its program and ends behind it. -/
theorem Countdown.control_flow : assemble source = .ok program ∧
    (∀ s, System.Reaches program.move (State.initial {}) s → program.Safe s) ∧
    ∃ n r e t, Machine.run {} program n {} ⟨.warn, #[]⟩ = some r ∧
      program.EndsSafely (State.initial {}) t e ∧ r.outcome = e.close t ∧ r.state.pc = t.pc := by
  obtain ⟨hsafe, hends⟩ := control_flow_safe assemble_source {}
  obtain ⟨r, hr⟩ : ∃ r, Machine.run {} program 16 {} ⟨.warn, #[]⟩ = some r := ⟨_, rfl⟩
  obtain ⟨e, t, hend, hout, hpc, -⟩ := hends {} 16 ⟨.warn, #[]⟩ r hr
  exact ⟨assemble_source, hsafe, 16, r, e, t, hr, hend, hout, hpc⟩

end Whitespace
