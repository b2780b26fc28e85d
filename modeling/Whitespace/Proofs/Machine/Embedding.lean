import Whitespace.Proofs.Assembly.Concatenation
import Whitespace.Proofs.Machine.Frame
import Whitespace.Proofs.Source.Numeral

/-!
# Embedded code

Code does the same behind other code, with values below its part of the data stack, as
it does alone: its places are moved, and the values stay where they are
(`Program.move_embed`).  Only a pop from an empty data stack would find one of them.

Pushes put these values there (`Program.run_pushes`).  So a program that is put behind
pushes runs as before on top of what they have left (`position_independent`).
-/

namespace Whitespace

open Source

namespace State

/-- The state with values below its data stack and behind so many instructions. -/
def embed (below : List Int64) (size : Nat) (s : State) : State :=
  { s with
    stack := s.stack ++ below
    pc := size + s.pc
    calls := s.calls.map (size + ·) }

variable (below : List Int64) (size : Nat)

theorem change_embed : Change (embed below size) below id id where
  stack _ := rfl
  heap _ := rfl
  input _ := rfl
  output _ := rfl
  setStack _ _ := rfl
  setHeap _ _ := rfl
  setInput _ _ := rfl
  setOutput _ _ := rfl

theorem renumbers_embed : Renumbers (embed below size) (size + ·) where
  pc _ := rfl
  calls _ := rfl
  setControl _ _ _ := rfl

end State

theorem Ending.close_embed (e : Ending) (below : List Int64) (size : Nat) (s : State) :
    e.close (s.embed below size) =
      ⟨(e.close s).result, (e.close s).state.embed below size⟩ := by
  cases e <;> rfl

theorem Ending.ne_fault_of_result_close {e : Ending} {s : State} {f : Fault}
    (h : (e.close s).result ≠ .error f) : e ≠ .fault f := by
  rintro rfl
  exact h rfl

theorem Instruction.execute_embed {below : List Int64} {size : Nat} {i : Instruction Target}
    {s : State} (h : (i.execute s).Spares below) :
    (i.mapTarget (Target.relocate (size + ·))).execute (s.embed below size) =
      (i.execute s).map (State.embed below size) := by
  exact execute_of_change (State.change_embed below size) (State.renumbers_embed below size) h

namespace Program

variable {p : Program} {s : State}

/-- **A move of embedded code** is a move of the code alone, unless that one asks for
more than its part of the data stack. -/
theorem move_embed (pre : Program) (below : List Int64)
    (h : ∀ t, p.move s ≠ .done (.fault .stackUnderflow) t) :
    (pre.followedBy p).move (s.embed below pre.size) =
      (p.move s).map (State.embed below pre.size) := by
  refine move_map (pre.get?_followedBy_add p s.pc) ?_
  intro i hi
  refine Instruction.execute_embed (s := { s with pc := s.pc + 1 }) (.inr ?_)
  intro t ht
  apply h t
  rw [move_of_get? hi, ht]
  rfl

theorem run_embed (pre : Program) (below : List Int64) {fuel : Nat} {e : Ending} {t : State}
    (h : System.run p.move fuel s = some (e, t)) (he : e ≠ .fault .stackUnderflow) :
    System.run (pre.followedBy p).move fuel (s.embed below pre.size) =
      some (e, t.embed below pre.size) := by
  rw [System.run_map (f := p.move), h]
  · rfl
  · intro u hu
    -- a pop from an empty data stack would have ended the run of the code alone
    refine move_embed pre below fun t' ht' => he ?_
    exact ((System.Ends.of_run h).unique (hu.ends (.done ht'))).1

theorem run_pushes (vs : List Int64)
    (h : ∀ i v, vs[i]? = some v → p.get? (s.pc + i) = some (.push v)) (fuel : Nat) :
    System.run p.move (fuel + vs.length) s =
      System.run p.move fuel { s with stack := vs.reverse ++ s.stack, pc := s.pc + vs.length } := by
  induction vs generalizing s with
  | nil => rfl
  | cons v vs ih =>
    have hmove : p.move s = .next (State.push { s with pc := s.pc + 1 } v) := by
      rw [move_of_get? (h 0 v rfl)]
      rfl
    rw [List.length_cons, ← Nat.add_assoc, System.run, hmove]
    refine (ih ?_).trans ?_
    · intro i w hw
      have hnext := h (i + 1) w hw
      rwa [← Nat.add_assoc, Nat.add_right_comm] at hnext
    · have hpc : s.pc + 1 + vs.length = s.pc + (vs.length + 1) := by omega
      simp only [State.push, List.reverse_cons, List.append_assoc, List.singleton_append, hpc]

end Program

/-! ## Sources that push values -/

/-- A source that pushes these values one after the other, however they are spelled. -/
def Source.Pushes (source : List UInt8) (vs : List Int64) : Prop :=
  ∃ ns : List Numeral, ns.map Numeral.value = vs ∧
    symbols source = ns.flatMap fun n => (Spelling.push n).symbols

def Program.pushes (vs : List Int64) : Program := ofList (vs.map .push)

theorem exists_pushes (vs : List Int64) : ∃ source, Pushes source vs := by
  refine ⟨ofSymbols _, vs.map Numeral.ofInt64, ?_, symbols_ofSymbols _⟩
  rw [List.map_map]
  exact (List.map_congr_left fun v _ => Numeral.value_ofInt64 v).trans (List.map_id vs)

namespace Program

theorem size_pushes (vs : List Int64) : (pushes vs).size = vs.length := by
  rw [size_eq_length, pushes, toList_ofList, List.length_map]

theorem get?_pushes_followedBy {vs : List Int64} (p : Program) {i : Nat} {v : Int64}
    (h : vs[i]? = some v) : ((pushes vs).followedBy p).get? i = some (.push v) := by
  have hlt : i < (pushes vs).size := by
    rw [size_pushes]
    exact (List.getElem?_eq_some_iff.1 h).1
  rw [get?_followedBy_of_lt hlt, get?_eq_getElem?, pushes, toList_ofList, List.getElem?_map, h]
  rfl

/-- A program that is put behind pushes runs on top of their values. -/
theorem run_pushes_followedBy (vs : List Int64) {p : Program} {fuel : Nat} {console : Console}
    {e : Ending} {t : State} (h : System.run p.move fuel (State.initial console) = some (e, t))
    (he : e ≠ .fault .stackUnderflow) :
    System.run ((pushes vs).followedBy p).move (fuel + vs.length) (State.initial console) =
      some (e, t.embed vs.reverse vs.length) := by
  rw [run_pushes vs]
  · have hinitial : { State.initial console with
        stack := vs.reverse ++ (State.initial console).stack
        pc := (State.initial console).pc + vs.length } =
        (State.initial console).embed vs.reverse (pushes vs).size := by
      simp [State.initial, State.embed, size_pushes]
    rw [hinitial, run_embed (pushes vs) vs.reverse h he, size_pushes]
  · intro i v hv
    rw [State.initial, Nat.zero_add]
    exact get?_pushes_followedBy p hv

end Program

/-- The pushes as a script. -/
def Script.pushes (vs : List Int64) : Script := vs.map .push

namespace Script

variable {vs : List Int64}

theorem plain_of_mem_pushes {c : Command} (h : c ∈ pushes vs) :
    c.isMark = false ∧ c.target? = none := by
  obtain ⟨v, -, rfl⟩ := List.mem_map.1 h
  exact ⟨rfl, rfl⟩

theorem marks_pushes : (pushes vs).marks = [] :=
  marks_eq_nil fun _ hc => (plain_of_mem_pushes hc).1

end Script

namespace Source.Pushes

variable {a s : List UInt8} {vs : List Int64} {p : Program}

theorem exists_spells (h : Pushes a vs) :
    ∃ cs, Spells a cs ∧ Script.ofSpellings cs = Script.pushes vs := by
  obtain ⟨ns, rfl, hsymbols⟩ := h
  have hscript : Script.ofSpellings (ns.map .push) = Script.pushes (ns.map Numeral.value) := by
    rw [Script.ofSpellings, Script.pushes, List.map_map, List.map_map]
    exact List.map_congr_left fun _ _ => rfl
  refine ⟨ns.map .push, ⟨?_, .inl ⟨by simp, ?_⟩⟩, hscript⟩
  · rw [hscript, Script.marks_pushes]
    exact List.nodup_nil
  · rw [hsymbols, List.flatMap_map]

theorem assemble_eq (h : Pushes a vs) : assemble a = .ok (Program.pushes vs) := by
  obtain ⟨cs, hcs, hscript⟩ := h.exists_spells
  rw [hcs.assemble_of_plain hscript (fun _ => Script.plain_of_mem_pushes) (Script.target []),
    Script.pushes, List.map_map]
  rfl

theorem marked_eq (h : Pushes a vs) : marked a = [] := by
  obtain ⟨cs, hcs, hscript⟩ := h.exists_spells
  rw [hcs.marked_eq, hscript, Script.marks_pushes]

theorem assemble_followedBy (h : Pushes a vs) (hs : assemble s = .ok p) :
    assemble (a ++ s) = .ok ((Program.pushes vs).followedBy p) := by
  refine assemble_append_of_disjoint h.assemble_eq ?_ hs ?_
  · simp [Program.pushes]
  · intro l _
    rw [h.marked_eq]
    exact List.not_mem_nil

end Source.Pushes

/-- **Code is position independent and touches only its own part of the data stack.**  A
program can be put behind pushes, however they are spelled.  If it ends for any other
reason than a data stack that is empty, then it ends so on top of their values: they
stay below its data stack, and its places are behind the pushes. -/
theorem position_independent {s : List UInt8} {p : Program} (h : assemble s = .ok p)
    (vs : List Int64) :
    (∃ a, Pushes a vs) ∧ ∀ a, Pushes a vs → ∃ q, assemble (a ++ s) = .ok q ∧
      ∀ (m : Machine) (fuel : Nat) (console : Console) (log : Log) (r : Report),
        m.run p fuel console log = some r → r.result ≠ .error .stackUnderflow →
        ∃ r', m.run q (fuel + vs.length) console log = some r' ∧
          r'.result = r.result ∧ r'.state.output = r.state.output ∧
          r'.state.input = r.state.input ∧ r'.state.heap = r.state.heap ∧
          r'.state.calls = r.state.calls.map (vs.length + ·) ∧
          r'.state.stack.reverse = vs ++ r.state.stack.reverse ∧
          r'.state.pc = vs.length + r.state.pc := by
  refine ⟨exists_pushes vs, ?_⟩
  intro a ha
  refine ⟨_, ha.assemble_followedBy h, ?_⟩
  intro m fuel console log r hr hresult
  obtain ⟨e, t, hrun, hout⟩ := Machine.system_run_of_run hr
  have he : e ≠ .fault .stackUnderflow := by
    refine Ending.ne_fault_of_result_close (s := t) ?_
    rw [← hout]
    exact hresult
  obtain ⟨r', hr', hout'⟩ :=
    Machine.exists_run_of_system_run (Program.run_pushes_followedBy vs hrun he) m log
  rw [e.close_embed, ← hout] at hout'
  have hstate : r'.state = r.state.embed vs.reverse vs.length := congrArg Outcome.state hout'
  refine ⟨r', hr', congrArg Outcome.result hout', ?_⟩
  rw [hstate]
  refine ⟨rfl, rfl, rfl, rfl, ?_, rfl⟩
  rw [State.embed, List.reverse_append, List.reverse_reverse]

namespace Countdown

/-- Behind two pushes the countdown leaves its zero on top of their values. -/
theorem on_top_of_pushes : assemble source = .ok program ∧
    ∃ r, Machine.run {} program 16 {} ⟨.warn, #[]⟩ = some r ∧ r.result = .ok () ∧
      r.state.stack = [0] ∧ r.state.pc = 8 ∧
      ∃ a q r', Pushes a [7, -1] ∧ assemble (a ++ source) = .ok q ∧
        Machine.run {} q 18 {} ⟨.warn, #[]⟩ = some r' ∧ r'.result = .ok () ∧
        r'.state.stack.reverse = [7, -1, 0] ∧ r'.state.pc = 10 := by
  obtain ⟨r, hr, hresult, hstack, hpc⟩ :
      ∃ r, Machine.run {} program 16 {} ⟨.warn, #[]⟩ = some r ∧ r.result = .ok () ∧
        r.state.stack = [0] ∧ r.state.pc = 8 := ⟨_, rfl, rfl, rfl, rfl⟩
  obtain ⟨⟨a, ha⟩, hall⟩ := position_independent assemble_source [7, -1]
  obtain ⟨q, hq, hrun⟩ := hall a ha
  have hne : r.result ≠ .error .stackUnderflow := by
    rw [hresult]
    intro h
    cases h
  obtain ⟨r', hr', hresult', -, -, -, -, hstack', hpc'⟩ := hrun {} 16 {} ⟨.warn, #[]⟩ r hr hne
  rw [hstack] at hstack'
  rw [hpc] at hpc'
  exact ⟨assemble_source, r, hr, hresult, hstack, hpc, a, q, r', ha, hq, hr',
    hresult'.trans hresult, hstack', hpc'⟩

end Countdown

end Whitespace
