import Whitespace.Machine.Session
import Whitespace.Proofs.Machine.Input

/-!
# Isolation

The runs of a session do not see each other.  A run starts from an empty machine,
whatever an earlier one has left there, so only the shared input ties them
together: a run that reads from it goes on behind the last byte that was consumed,
and how many bytes that were makes no difference to it (`Input.countedFrom`).
Hence a session is nothing but its runs, each on a new machine, with the shared
input cut into consecutive parts (`runs_do_not_interfere`).
-/

namespace Whitespace

/-! ## The count of consumed bytes -/

namespace Input

/-- The same bytes, of an input of which `c` more bytes have been consumed. -/
def countedFrom (c : Nat) (i : Input) : Input := { i with consumed := i.consumed + c }

theorem advance_countedFrom (c : Nat) (i : Input) (n : Nat) :
    (i.countedFrom c).advance n = (i.advance n).countedFrom c := by
  simp only [advance, countedFrom, Nat.add_right_comm]

theorem readNum_countedFrom (c : Nat) (i : Input) :
    (i.countedFrom c).readNum = Prod.map id (countedFrom c) i.readNum := by
  simp only [readNum, advance_countedFrom]
  rfl

theorem readChar_countedFrom (c : Nat) (i : Input) :
    (i.countedFrom c).readChar = Prod.map id (countedFrom c) i.readChar := by
  have hbytes : (i.countedFrom c).bytes = i.bytes := rfl
  have hending : (i.countedFrom c).ending = i.ending := rfl
  unfold readChar
  rw [hbytes, hending]
  cases i.bytes with
  | nil => cases i.ending <;> rfl
  | cons b rest =>
    dsimp only
    cases width? b <;> simp only [advance_countedFrom] <;> rfl

/-- What is left behind the first `n` bytes, as an input of its own. -/
def suffix (n : Nat) (i : Input) : Input := { i with bytes := i.bytes.drop n, consumed := 0 }

theorem suffix_zero (i : Input) : (i.suffix 0).countedFrom i.consumed = i := by
  simp only [suffix, countedFrom, List.drop_zero, Nat.zero_add]

/-- Reading on in a suffix leaves a shorter one. -/
theorem Leaves.eq_suffix {i j : Input} {n c : Nat} (h : (i.suffix n).Leaves j) :
    j.countedFrom c = (i.suffix (n + j.consumed)).countedFrom (j.consumed + c) := by
  obtain ⟨hj, -⟩ := h.eq_advance (Nat.zero_add j.consumed).symm
  have hbytes : j.bytes = i.bytes.drop (n + j.consumed) := by
    conv => lhs; rw [hj]
    rw [advance, suffix, List.drop_drop]
  have hending : j.ending = i.ending := by rw [hj]; rfl
  simp only [countedFrom, suffix, hbytes, hending, Nat.zero_add]

end Input

theorem Operation.source_countedFrom {o : Operation} {source : Input → Except Fault Int64 × Input}
    (ho : o.source? = some source) (c : Nat) (i : Input) :
    source (i.countedFrom c) = Prod.map id (Input.countedFrom c) (source i) := by
  cases o <;> cases ho
  case readChar =>
    simp only [Input.readChar_countedFrom]
    rfl
  case readNum => exact i.readNum_countedFrom c

theorem Program.move_countedFrom (p : Program) (c : Nat) (s : State) :
    p.move (s.mapInput (Input.countedFrom c)) =
      (p.move s).map (State.mapInput (Input.countedFrom c)) := by
  apply move_mapInput
  intro i source _ hsource _
  cases i with
  | push _ | mark _ | branch _ _ => cases hsource
  | op o => exact Operation.source_countedFrom hsource c s.input

/-! ## Single runs -/

/-- Two computations with the same image both give an answer, or neither does. -/
theorem exists_of_map_eq_map {α β γ : Type} {x : Option α} {y : Option β} {f : α → γ}
    {g : β → γ} (h : x.map f = y.map g) :
    (x = none ∧ y = none) ∨ ∃ a b, x = some a ∧ y = some b ∧ f a = g b := by
  cases x with
  | none =>
    cases y with
    | none => exact .inl ⟨rfl, rfl⟩
    | some b => cases h
  | some a =>
    cases y with
    | none => cases h
    | some b => exact .inr ⟨a, b, rfl, rfl, Option.some.inj h⟩

namespace Machine

variable {p : Program}

/-- **A run depends on its program and streams.**  Neither the machine nor the log
nor the count of consumed bytes makes a difference. -/
theorem run_countedFrom (m : Machine) (fuel c : Nat) (input : Input) (output : Output)
    (log log' : Log) :
    (m.run p fuel ⟨input.countedFrom c, output⟩ log = none ∧
        p.run fuel ⟨input, output⟩ log' = none) ∨
      ∃ r r', m.run p fuel ⟨input.countedFrom c, output⟩ log = some r ∧
        p.run fuel ⟨input, output⟩ log' = some r' ∧
        r.outcome = r'.outcome.mapInput (.countedFrom c) := by
  have hcount := @outcome_run_mapInput p ⟨input, output⟩ (.countedFrom c)
    (fun u _ => p.move_countedFrom c u) {} fuel log'
  apply exists_of_map_eq_map
  rw [Program.run, ← hcount, outcome_run, outcome_run]

theorem leaves_run {m : Machine} {fuel : Nat} {console : Console} {log : Log} {r : Report}
    (h : m.run p fuel console log = some r) : console.input.Leaves r.state.input := by
  obtain ⟨e, t, hends, hout⟩ := ends_of_run h
  rw [Report.input_of_outcome hout]
  exact hends.leaves

end Machine

/-! ## Sessions -/

/-- What can be seen of a run: its result, the machine behind it, and all that was
written and flushed. -/
def Report.seen (r : Report) : Except Fault Unit × Machine × Output :=
  (r.result, r.state.toMachine, r.state.output)

theorem Report.seen_of_outcome {r r' : Report} {ψ : Input → Input}
    (h : r.outcome = r'.outcome.mapInput ψ) : r.seen = r'.seen := by
  have hseen := congrArg (fun o => (o.result, o.state.toMachine, o.state.output)) h
  exact hseen

namespace Session

/-- Performs actions one after the other, each in a number of turns of its own. -/
def performAll (s : Session) (log : Log) : List (Nat × Action) → Option (List Report)
  | [] => some []
  | (fuel, a) :: rest => do
    let (r, s) ← s.perform fuel log a
    let rs ← s.performAll r.log rest
    return r :: rs

/-- The streams of a run that is the only one, once `read` bytes of the shared input
are gone. -/
def Action.console (shared : Input) (read : Nat) : Action → Console
  | run console => console
  | runShared output => ⟨shared.suffix read, output⟩
  | runElsewhere console => console

/-- How many bytes a run has taken from the shared input. -/
def Action.taken (r : Report) : Action → Nat
  | runShared _ => r.state.input.consumed
  | run _ | runElsewhere _ => 0

/-- What the actions come to if every run has a new machine, and the shared input
from behind the bytes that were taken before. -/
def isolated (p : Program) (shared : Input) (log : Log) :
    (read : Nat) → List (Nat × Action) → Option (List Report)
  | _, [] => some []
  | read, (fuel, a) :: rest => do
    let r ← p.run fuel (a.console shared read) log
    let rs ← isolated p shared log (read + a.taken r) rest
    return r :: rs

variable {s : Session} {shared : Input} {read c fuel : Nat} {log log' : Log}

/-- **One action** comes to what it comes to alone. -/
theorem perform_isolated (fuel : Nat) (log log' : Log) (a : Action)
    (hs : s.shared = (shared.suffix read).countedFrom c) :
    (s.perform fuel log a = none ∧ s.program.run fuel (a.console shared read) log' = none) ∨
      ∃ r t r' c', s.perform fuel log a = some (r, t) ∧
        s.program.run fuel (a.console shared read) log' = some r' ∧ r.seen = r'.seen ∧
        t.program = s.program ∧ t.shared = (shared.suffix (read + a.taken r')).countedFrom c' := by
  cases a with
  | run console =>
    rcases s.machine.run_countedFrom fuel 0 console.input console.output log log' with
      ⟨h, h'⟩ | ⟨r, r', h, h', hr⟩
    · exact .inl ⟨congrArg (· >>= _) h, h'⟩
    · exact .inr ⟨r, { s with machine := r.state.toMachine }, r', c, congrArg (· >>= _) h, h',
        Report.seen_of_outcome hr, rfl, hs⟩
  | runElsewhere console =>
    rcases Machine.run_countedFrom {} fuel 0 console.input console.output log log' with
      ⟨h, h'⟩ | ⟨r, r', h, h', hr⟩
    · exact .inl ⟨congrArg (· >>= _) h, h'⟩
    · exact .inr ⟨r, s, r', c, congrArg (· >>= _) h, h', Report.seen_of_outcome hr, rfl, hs⟩
  | runShared output =>
    rcases s.machine.run_countedFrom fuel c (shared.suffix read) output log log' with
      ⟨h, h'⟩ | ⟨r, r', h, h', hr⟩
    · exact .inl ⟨by rw [perform, hs, h]; rfl, h'⟩
    · have hinput : r.state.input = r'.state.input.countedFrom c :=
        congrArg (fun o => o.state.input) hr
      have hshared := hinput.trans (Machine.leaves_run h').eq_suffix
      exact .inr ⟨r, { s with machine := r.state.toMachine, shared := r.state.input }, r', _,
        by rw [perform, hs, h]; rfl, h', Report.seen_of_outcome hr, rfl, hshared⟩

/-- **Runs do not see each other.**  Whatever has happened on the machine of the
session, each of its runs gives what a new machine gives: on the streams of the
run, or on that part of the shared input which the earlier runs have left. -/
theorem runs_do_not_interfere (s : Session) (log : Log) (actions : List (Nat × Action)) :
    (s.performAll log actions).map (List.map Report.seen) =
      (isolated s.program s.shared log 0 actions).map (List.map Report.seen) := by
  -- along the session the log grows, and more of the shared input is gone
  suffices key : ∀ (t : Session) (log' : Log) (shared : Input) (read c : Nat),
      t.shared = (shared.suffix read).countedFrom c →
      (t.performAll log' actions).map (List.map Report.seen) =
        (isolated t.program shared log read actions).map (List.map Report.seen) from
    key s log s.shared 0 s.shared.consumed s.shared.suffix_zero.symm
  induction actions with
  | nil =>
    intro t log' shared read c _
    rfl
  | cons action rest ih =>
    intro t log' shared read c ht
    obtain ⟨fuel, a⟩ := action
    rw [performAll, isolated]
    rcases perform_isolated fuel log' log a ht with ⟨h, h'⟩ | ⟨r, u, r', c', h, h', hr, hp, hu⟩
    · rw [h, h']
      rfl
    · have hrest := ih u r.log shared (read + a.taken r') c' hu
      rw [hp] at hrest
      rw [h, h']
      simp only [Option.bind_eq_bind, Option.bind_some]
      rcases exists_of_map_eq_map hrest with ⟨hn, hn'⟩ | ⟨rs, rs', hn, hn', hrs⟩
      · rw [hn, hn']
        rfl
      · rw [hn, hn']
        exact congrArg some (List.cons_eq_cons.2 ⟨hr, hrs⟩)

end Session

end Whitespace
