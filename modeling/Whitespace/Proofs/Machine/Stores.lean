import Whitespace.Proofs.Machine.Faults

/-!
# Stores

Of all instructions only a store changes the heap, and only one that does not fail
(`Program.heap_move`).  So the heap is what the stores of an execution have made of
it, in their order: its addresses are those that were stored to, each with the
value that was stored there last (`Heap.Records`).  What was stored is told by the
states that the execution came through (`System.Path`).
-/

namespace Whitespace

/-! ## The way of an execution -/

namespace System

/-- The execution comes from the first state to the second one by moving in these
states, in this order. -/
inductive Path (f : System) (s : State) : List State → State → Prop
  | refl : Path f s [] s
  | step {before : List State} {t u : State} (h : Path f s before t) (ht : f t = .next u) :
    Path f s (before ++ [t]) u

variable {f : System} {s t u : State} {e : Ending} {before : List State}

theorem Path.head (h : f s = .next t) (ht : Path f t before u) : Path f s (s :: before) u := by
  induction ht with
  | refl =>
    have hnil : Path f s [] s := .refl
    exact hnil.step h
  | step _ hu ih => exact .step ih hu

theorem reaches_iff_exists_path : Reaches f s t ↔ ∃ before, Path f s before t := by
  constructor
  · intro h
    induction h with
    | refl => exact ⟨[], .refl⟩
    | step _ hu ih =>
      obtain ⟨before, hbefore⟩ := ih
      exact ⟨_, .step hbefore hu⟩
  · rintro ⟨before, h⟩
    induction h with
    | refl => exact .refl
    | step _ hu ih => exact .step ih hu

/-- A run goes its way and then makes its last move. -/
theorem exists_path_of_run {fuel : Nat} (h : run f fuel s = some (e, t)) :
    ∃ before u, Path f s before u ∧ f u = .done e t ∧ visited f fuel s = before ++ [u] := by
  induction fuel generalizing s with
  | zero => cases h
  | succ fuel ih =>
    rw [run] at h
    rw [visited]
    cases hs : f s with
    | next s' =>
      rw [hs] at h
      obtain ⟨before, u, hpath, hlast, hvisited⟩ := ih h
      exact ⟨s :: before, u, hpath.head hs, hlast, congrArg (s :: ·) hvisited⟩
    | done e' t' =>
      rw [hs] at h
      cases h
      exact ⟨[], s, .refl, hs, rfl⟩

end System

/-! ## Histories -/

/-- The value was stored to the address, and none was after it. -/
def Latest (stores : List (Int64 × Int64)) (address value : Int64) : Prop :=
  ∃ earlier later, stores = earlier ++ (address, value) :: later ∧ ∀ w ∈ later, w.1 ≠ address

/-- What the heap holds is what these stores have left, the oldest of them first. -/
structure Heap.Records (h : Heap) (stores : List (Int64 × Int64)) : Prop where
  addresses : ∀ a, (∃ v, (a, v) ∈ h.toList) ↔ ∃ v, (a, v) ∈ stores
  entries : ∀ a v, (a, v) ∈ h.toList ↔ Latest stores a v

theorem latest_concat {stores : List (Int64 × Int64)} {a b v w : Int64} :
    Latest (stores ++ [(a, v)]) b w ↔ if a = b then v = w else Latest stores b w := by
  constructor
  · rintro ⟨earlier, later, heq, hlater⟩
    rcases later.eq_nil_or_concat with rfl | ⟨later, x, rfl⟩
    · obtain ⟨-, hlast⟩ := List.append_inj' heq rfl
      cases hlast
      rw [if_pos rfl]
    · rw [List.concat_eq_append] at heq hlater
      rw [← List.cons_append, ← List.append_assoc] at heq
      obtain ⟨hstores, hlast⟩ := List.append_inj' heq rfl
      cases hlast
      rw [if_neg (hlater (a, v) (List.mem_append_right _ List.mem_cons_self))]
      exact ⟨earlier, later, hstores, fun x hx => hlater x (List.mem_append_left _ hx)⟩
  · intro h
    by_cases hab : a = b
    · rw [if_pos hab] at h
      subst hab h
      exact ⟨stores, [], rfl, nofun⟩
    · rw [if_neg hab] at h
      obtain ⟨earlier, later, rfl, hlater⟩ := h
      refine ⟨earlier, later ++ [(a, v)], by rw [List.append_assoc, List.cons_append], ?_⟩
      intro x hx
      rcases List.mem_append.1 hx with hx | hx
      · exact hlater x hx
      · rw [List.mem_singleton.1 hx]
        exact hab

namespace Heap

variable {h : Heap} {stores : List (Int64 × Int64)}

theorem records_empty : empty.Records [] where
  addresses a := by simp
  entries a v := by simp [Latest]

namespace Records

/-- **A store is recorded at the end of the history.** -/
theorem store (hs : h.Records stores) (a v : Int64) :
    (h.store a v).Records (stores ++ [(a, v)]) where
  addresses b := by
    simp only [mem_toList_iff, find?_store, List.mem_append, List.mem_singleton, Prod.mk.injEq]
    by_cases hab : a = b
    · subst hab
      simp
    · have hstores := hs.addresses b
      simp only [mem_toList_iff] at hstores
      simp [hab, Ne.symm hab, hstores]
  entries b w := by
    rw [mem_toList_iff, find?_store, latest_concat]
    by_cases hab : a = b
    · rw [if_pos hab, if_pos hab, Option.some.injEq]
    · rw [if_neg hab, if_neg hab, ← mem_toList_iff, hs.entries]

/-- What is loaded from an address was stored there last, or nothing was ever. -/
theorem load (hs : h.Records stores) (a : Int64) :
    Latest stores a (h.load a) ∨ (∀ v, (a, v) ∉ stores) ∧ h.load a = 0 := by
  rw [Heap.load]
  cases hfind : h.find? a with
  | some v => exact .inl ((hs.entries a v).1 ((mem_toList_iff h a v).2 hfind))
  | none =>
    refine .inr ⟨?_, rfl⟩
    intro v hv
    obtain ⟨w, hw⟩ := (hs.addresses a).2 ⟨v, hv⟩
    rw [mem_toList_iff, hfind] at hw
    cases hw

end Records

end Heap

/-! ## Instructions and the heap -/

namespace State

variable {s : State} {heap : Heap}

theorem heap_pop {k : Int64 → State → Step} (hs : s.heap = heap)
    (hk : ∀ a t, t.heap = heap → (k a t).state.heap = heap) : (s.pop k).state.heap = heap := by
  unfold pop
  split
  · exact hs
  · exact hk _ _ hs

theorem heap_write (s : State) (bytes : List UInt8) : (s.write bytes).state.heap = s.heap := by
  rw [write_eq]
  rcases s.output.write bytes with ⟨_ | _, output⟩ <;> rfl

theorem heap_flush {k : State → Step} (hk : ∀ t, t.heap = s.heap → (k t).state.heap = s.heap) :
    (s.flush k).state.heap = s.heap := by
  rw [flush_eq]
  rcases s.output.flush with ⟨_ | _, output⟩
  · rfl
  · exact hk _ rfl

theorem heap_read {α : Type} (s : State) (source : Input → Except Fault α × Input)
    (number : α → Int64) : (s.read source number).state.heap = s.heap := by
  unfold read
  rcases source s.input with ⟨_ | a, input⟩ <;> rfl

end State

theorem Operation.heap_execute {o : Operation} (ho : o ≠ .store) (s : State) :
    (o.execute s).state.heap = s.heap := by
  cases o <;> simp only [execute]
  case dup | discard | retrieve => exact State.heap_pop rfl fun _ _ ht => ht
  case swap => exact State.heap_pop rfl fun _ _ ht => State.heap_pop ht fun _ _ hu => hu
  case arith op =>
    refine State.heap_pop rfl fun r _ ht => State.heap_pop ht fun l _ hu => ?_
    cases op.eval? l r <;> exact hu
  case store => exact absurd rfl ho
  case ret =>
    rw [State.ret]
    cases s.calls <;> rfl
  case exit => rfl
  case outChar | outNum => exact State.heap_pop rfl fun _ t ht => (t.heap_write _).trans ht
  case readChar | readNum => exact State.heap_flush fun t ht => (t.heap_read _ _).trans ht

namespace Instruction

variable {i : Instruction Target} {s : State}

/-- The address and the value of a store, if there are both. -/
def stored? (s : State) : Instruction Target → Option (Int64 × Int64)
  | op .store =>
    match s.stack with
    | value :: address :: _ => some (address, value)
    | _ => none
  | _ => none

theorem heap_execute_of_ne (hi : i ≠ .op .store) (s : State) :
    (i.execute s).state.heap = s.heap := by
  cases i with
  | push n | mark l => rfl
  | branch kind target =>
    cases kind <;> simp only [execute, Branch.execute]
    case call | jump => rfl
    case jumpIfZero | jumpIfNegative =>
      refine State.heap_pop rfl fun a t ht => ?_
      split <;> exact ht
  | op o => exact Operation.heap_execute (fun ho => hi (congrArg _ ho)) s

theorem stored?_eq_some_iff {a v : Int64} :
    i.stored? s = some (a, v) ↔ i = .op .store ∧ ∃ stack, s.stack = v :: a :: stack := by
  constructor
  · intro h
    unfold stored? at h
    split at h
    · split at h
      · next value address stack hstack =>
        cases h
        exact ⟨rfl, stack, hstack⟩
      · cases h
    · cases h
  · rintro ⟨rfl, stack, hstack⟩
    rw [stored?, hstack]

theorem execute_of_stored? {a v : Int64} (h : i.stored? s = some (a, v)) :
    i.execute s = .next { s with stack := s.stack.drop 2, heap := s.heap.store a v } := by
  obtain ⟨rfl, stack, hstack⟩ := stored?_eq_some_iff.1 h
  rw [execute, Operation.execute, State.pop_of_cons hstack, State.pop_of_cons rfl, hstack]
  rfl

/-- **What an instruction does to the heap**: it stores, or it leaves it alone. -/
theorem heap_execute (i : Instruction Target) (s : State) :
    (i.execute s).state.heap = (i.stored? s).elim s.heap fun w => s.heap.store w.1 w.2 := by
  cases hstored : i.stored? s with
  | some w => rw [execute_of_stored? hstored]; rfl
  | none =>
    by_cases hi : i = .op .store
    · subst hi
      rcases hstack : s.stack with _ | ⟨v, _ | ⟨a, stack⟩⟩
      · rw [execute_of_short (by rw [hstack]; exact Nat.two_pos)]
        rfl
      · rw [execute_of_short (by rw [hstack]; exact Nat.one_lt_two)]
        rfl
      · rw [stored?_eq_some_iff.2 ⟨rfl, stack, hstack⟩] at hstored
        cases hstored
    · exact heap_execute_of_ne hi s

end Instruction

namespace Program

variable {p : Program} {s t : State} {e : Ending}

/-- The address and the value of the next instruction, if it is a store that has both. -/
def stored? (p : Program) (s : State) : Option (Int64 × Int64) :=
  (p.get? s.pc).bind (Instruction.stored? s)

theorem heap_move (p : Program) (s : State) :
    (p.move s).state.heap = (p.stored? s).elim s.heap fun w => s.heap.store w.1 w.2 := by
  cases hi : p.get? s.pc with
  | none =>
    rw [move_of_get?_eq_none hi, stored?, hi]
    rfl
  | some i =>
    rw [move_of_get? hi, Step.state_move, Instruction.heap_execute, stored?, hi]
    rfl

/-- A store that is made does not stop the run. -/
theorem stored?_eq_none_of_done (h : p.move s = .done e t) : p.stored? s = none := by
  cases hstored : p.stored? s with
  | none => rfl
  | some w =>
    obtain ⟨i, hi, hw⟩ := Option.bind_eq_some_iff.1 hstored
    rw [move_of_get? hi, Instruction.execute_of_stored? (s := { s with pc := s.pc + 1 }) hw] at h
    cases h

theorem stored?_eq_none_of_ne (h : p.get? s.pc ≠ some (.op .store)) : p.stored? s = none := by
  cases hstored : p.stored? s with
  | none => rfl
  | some w =>
    obtain ⟨i, hi, hw⟩ := Option.bind_eq_some_iff.1 hstored
    rw [(Instruction.stored?_eq_some_iff.1 hw).1] at hi
    exact absurd hi h

theorem move_of_retrieve {a : Int64} {stack : List Int64} (h : p.get? s.pc = some (.op .retrieve))
    (hstack : s.stack = a :: stack) :
    p.move s = .next { s with pc := s.pc + 1, stack := s.heap.load a :: stack } := by
  rw [move_of_get? h, Instruction.execute, Operation.execute,
    State.pop_of_cons (s := { s with pc := s.pc + 1 }) hstack]
  rfl

/-- How a state stands to the stores that were made before it. -/
structure Remembers (p : Program) (stores : List (Int64 × Int64)) (t : State) : Prop where
  /-- The heap holds what they have left. -/
  records : t.heap.Records stores
  /-- What is retrieved is what was stored there last, or zero. -/
  retrieve : ∀ a stack, p.get? t.pc = some (.op .retrieve) → t.stack = a :: stack →
    ∃ v, p.move t = .next { t with pc := t.pc + 1, stack := v :: stack } ∧
      (Latest stores a v ∨ (∀ w, (a, w) ∉ stores) ∧ v = 0)
  /-- Any instruction but a store leaves the heap alone, and so does a store that fails. -/
  others : (p.get? t.pc ≠ some (.op .store) ∨ ∃ e u, p.move t = .done e u) →
    (p.move t).state.heap = t.heap

theorem remembers_of_records {stores : List (Int64 × Int64)} (h : t.heap.Records stores) :
    p.Remembers stores t where
  records := h
  retrieve a stack hi hstack := ⟨_, move_of_retrieve hi hstack, h.load a⟩
  others hother := by
    have hstored : p.stored? t = none := by
      rcases hother with hne | ⟨e, u, hdone⟩
      · exact stored?_eq_none_of_ne hne
      · exact stored?_eq_none_of_done hdone
    rw [heap_move, hstored]
    rfl

/-- A move adds its store to the history, if it makes one. -/
theorem records_next {before : List State} (hs : s.heap.Records (before.filterMap p.stored?))
    (h : p.move s = .next t) : t.heap.Records ((before ++ [s]).filterMap p.stored?) := by
  have hheap := p.heap_move s
  rw [h] at hheap
  change t.heap = _ at hheap
  rw [hheap, List.filterMap_append]
  cases hstored : p.stored? s with
  | none => simpa [hstored] using hs
  | some w => simpa [hstored] using hs.store w.1 w.2

theorem records_of_path {console : Console} {before : List State}
    (h : System.Path p.move (State.initial console) before t) :
    t.heap.Records (before.filterMap p.stored?) := by
  induction h with
  | refl => exact Heap.records_empty
  | step _ hmove ih => exact records_next ih hmove

end Program

/-- **The heap is the history of the stores**, in every state that an execution comes to
and at the end of every run. -/
theorem heap_is_history (p : Program) (console : Console) :
    (∀ t, System.Reaches p.move (State.initial console) t ↔
      ∃ before, System.Path p.move (State.initial console) before t) ∧
    (∀ before t, System.Path p.move (State.initial console) before t →
      p.Remembers (before.filterMap p.stored?) t) ∧
    ∀ (m : Machine) (fuel : Nat) (log : Log) (r : Report), m.run p fuel console log = some r →
      r.state.heap.Records
        ((System.visited p.move fuel (State.initial console)).filterMap p.stored?) := by
  refine ⟨fun t => System.reaches_iff_exists_path,
    fun before t h => Program.remembers_of_records (Program.records_of_path h), ?_⟩
  intro m fuel log r hr
  obtain ⟨e, t, hrun, hout⟩ := Machine.system_run_of_run hr
  obtain ⟨before, u, hpath, hlast, hvisited⟩ := System.exists_path_of_run hrun
  have hnone := Program.stored?_eq_none_of_done hlast
  have hheap : t.heap = u.heap := by
    have hmove := p.heap_move u
    rwa [hlast, hnone] at hmove
  have hstate : r.state.heap = u.heap := by
    rw [Report.state_of_outcome hout, ← hheap]
  rw [hstate, hvisited, List.filterMap_append]
  simpa [hnone] using Program.records_of_path hpath

/-- A zero is stored over a seven, and stays an entry. -/
example : (Machine.run {} (.ofList [.push (-1), .push 7, .op .store, .push (-1), .push 0,
    .op .store]) 7 {} ⟨.warn, #[]⟩).map (fun r => r.state.heap.toList) = some [(-1, 0)] := rfl

end Whitespace
