import Whitespace.Proofs.Machine.Characters
import Whitespace.Proofs.Machine.Numbers
import Whitespace.Proofs.Machine.Output
import Whitespace.Proofs.Machine.StraightLine

/-!
# Printing and reading back

Characters and numbers are printed one after the other, every number on a line of its own.
A read takes one item off the front and leaves the rest: the first byte of a character tells
its width, whatever follows it, and a number is over with its line feed.  So the reads that
belong to the items give their values back and consume all that was printed
(`printed_items_read_back`).
-/

namespace Whitespace

open Source Utf8

/-- Something to print. -/
inductive Item where
  | char (c : Char)
  | number (n : Int64)
  deriving DecidableEq, Repr

namespace Item

/-- What stands for the item on the data stack. -/
def value : Item → Int64
  | char c => valueOfChar c
  | number n => n

/-- Pushes the item and prints it, a number with a line feed behind it. -/
def printing {τ : Type} : Item → List (Instruction τ)
  | char c => [.push (valueOfChar c), .op .outChar]
  | number n => [.push n, .op .outNum, .push 10, .op .outChar]

/-- Reads an item of the same kind. -/
def reading {τ : Type} : Item → Instruction τ
  | char _ => .op .readChar
  | number _ => .op .readNum

/-- The bytes that are printed. -/
def text : Item → List UInt8
  | char c => encodeChar c
  | number n => Decimal.printed n ++ [0x0A]

end Item

theorem charOfValue_valueOfChar (c : Char) : charOfValue (valueOfChar c) = c := by
  have hmax := toNat_lt c
  have hint : (valueOfChar c).toInt = c.toNat := by
    rw [valueOfChar, Int64.toInt_ofNat_of_lt (by omega)]
  have hvalid : (c.toNat : Int).toNat.isValidChar := c.valid
  simp only [charOfValue, hint]
  rw [if_pos ⟨Int.natCast_nonneg _, hvalid⟩, Int.toNat_natCast, Char.ofNat_toNat]

/-! ## Printing -/

namespace State

/-- The state at another place, when some more bytes have been written. -/
def printed (s : State) (pc : Nat) (bytes : List UInt8) : State :=
  { s with pc, output.written := s.output.written ++ bytes }

variable {s : State}

theorem printed_nil (s : State) : s.printed s.pc [] = s := by
  simp [printed]

theorem printed_printed (s : State) (m n : Nat) (a b : List UInt8) :
    (s.printed m a).printed n b = s.printed n (a ++ b) := by
  have hwritten : s.output.written ++ a ++ b = s.output.written ++ (a ++ b) := by
    rw [← Array.toList_inj]
    simp
  simp only [printed, hwritten]

theorem write_of_writeLimit_eq_none (h : s.output.writeLimit = none) (bytes : List UInt8) :
    s.write bytes = .next (s.printed s.pc bytes) := by
  rw [write_eq, Output.write_of_writeLimit_eq_none h]
  rfl

end State

namespace Instruction

variable {s : State}

theorem execute_print {o : Operation} {text : Int64 → List UInt8} (ho : o.text? = some text)
    (h : s.output.writeLimit = none) {v : Int64} {stack : List Int64} (hs : s.stack = v :: stack) :
    (op o).execute s = .next (State.printed { s with stack } s.pc (text v)) := by
  rw [execute, Operation.execute_of_text? ho, State.pop_of_cons hs]
  exact State.write_of_writeLimit_eq_none (s := { s with stack }) h (text v)

theorem executeAll_push_print {o : Operation} {text : Int64 → List UInt8}
    (ho : o.text? = some text) (h : s.output.writeLimit = none) (v : Int64) :
    executeAll [.push v, .op o] s = .next (s.printed (s.pc + 2) (text v)) := by
  have hprint := execute_print (s := State.push { s with pc := s.pc + 2 } v) ho h rfl
  rw [executeAll_cons_of_next rfl]
  exact executeAll_cons_of_next hprint []

/-- Printing an item writes its text and leaves the rest of the state alone. -/
theorem executeAll_printing (item : Item) (h : s.output.writeLimit = none) :
    ∃ pc, executeAll item.printing s = .next (s.printed pc item.text) := by
  cases item with
  | char c =>
    refine ⟨s.pc + 2, ?_⟩
    rw [Item.printing, executeAll_push_print rfl h, charOfValue_valueOfChar, Item.text]
  | number n =>
    have hnumber : executeAll [.push n, .op .outNum] s =
        .next (s.printed (s.pc + 2) (Decimal.printed n)) := executeAll_push_print rfl h n
    have hline : executeAll [.push 10, .op .outChar] (s.printed (s.pc + 2) (Decimal.printed n)) =
        .next ((s.printed (s.pc + 2) (Decimal.printed n)).printed (s.pc + 4) [0x0A]) :=
      executeAll_push_print (s := s.printed (s.pc + 2) (Decimal.printed n)) (o := .outChar) rfl h 10
    refine ⟨s.pc + 4, ?_⟩
    rw [Item.text, ← State.printed_printed, ← hline, ← executeAll_append hnumber]
    rfl

theorem executeAll_printing_all (items : List Item) (h : s.output.writeLimit = none) :
    ∃ pc, executeAll (items.flatMap Item.printing) s =
      .next (s.printed pc (items.flatMap Item.text)) := by
  induction items generalizing s with
  | nil => exact ⟨s.pc, congrArg Step.next s.printed_nil.symm⟩
  | cons item items ih =>
    obtain ⟨pc, hitem⟩ := executeAll_printing item h
    obtain ⟨pc', hitems⟩ := @ih (s.printed pc item.text) h
    refine ⟨pc', ?_⟩
    rw [List.flatMap_cons, executeAll_append hitem, hitems, State.printed_printed,
      List.flatMap_cons]

/-! ## Reading -/

/-- A read takes the item off the front of the input. -/
theorem execute_reading (item : Item) (hflush : s.output.canFlush = true)
    (h : item.text <+: s.input.bytes) :
    item.reading.execute s =
      .next { s with
        stack := item.value :: s.stack
        input := s.input.advance item.text.length
        output := s.output.flush.2 } := by
  cases item with
  | char c =>
    rw [Item.reading, execute, Operation.execute, State.flush_of_canFlush hflush]
    have hread := Input.readChar_of_encoding h
    simp only [State.read, hread]
    rfl
  | number n =>
    rw [Item.reading, execute, Operation.execute, State.flush_of_canFlush hflush]
    have hread := Input.readNum_of_printed h
    simp only [State.read, hread]
    rfl

theorem executeAll_reading_all (items : List Item) (hflush : s.output.flushLimit = none)
    {rest : List UInt8} (h : s.input.bytes = items.flatMap Item.text ++ rest) :
    ∃ t, executeAll (items.map Item.reading) s = .next t ∧
      t.stack = (items.map Item.value).reverse ++ s.stack ∧ t.input.bytes = rest ∧
      t.input.consumed = s.input.consumed + (items.flatMap Item.text).length ∧
      t.output.flushLimit = none := by
  induction items generalizing s with
  | nil => exact ⟨s, rfl, rfl, h, rfl, hflush⟩
  | cons item items ih =>
    rw [List.flatMap_cons, List.append_assoc] at h
    have hcan := Output.canFlush_of_flushLimit_eq_none hflush
    have hitem := execute_reading (s := { s with pc := s.pc + 1 }) item hcan
      (h ▸ List.prefix_append _ _)
    have hadvance : (s.input.advance item.text.length).bytes = items.flatMap Item.text ++ rest := by
      rw [Input.advance, h, List.drop_left]
    have hconsumed : (s.input.advance item.text.length).consumed =
        s.input.consumed + item.text.length := by
      rw [Input.advance, h, List.take_left]
    obtain ⟨t, hrest, hstack, hbytes, hcount, hlimit⟩ := @ih
      { s with
        pc := s.pc + 1
        stack := item.value :: s.stack
        input := s.input.advance item.text.length
        output := s.output.flush.2 } (s.output.grows_flush.flushLimit.trans hflush) hadvance
    refine ⟨t, ?_, ?_, hbytes, ?_, hlimit⟩
    · rw [List.map_cons, executeAll_cons_of_next hitem, hrest]
    · rw [hstack]
      simp
    · rw [hcount, hconsumed, List.flatMap_cons, List.length_append, Nat.add_assoc]

end Instruction

/-! ## Programs -/

namespace Item

variable {α β : Type} {items : List Item}

theorem isStraight_of_mem_printing {i : Instruction α} (h : i ∈ items.flatMap printing) :
    i.isStraight = true := by
  obtain ⟨item, -, hi⟩ := List.mem_flatMap.1 h
  cases item <;> simp only [printing, List.mem_cons, List.not_mem_nil, or_false] at hi
  · rcases hi with rfl | rfl <;> rfl
  · rcases hi with rfl | rfl | rfl | rfl <;> rfl

theorem isStraight_of_mem_reading {i : Instruction α} (h : i ∈ items.map reading) :
    i.isStraight = true := by
  obtain ⟨item, -, rfl⟩ := List.mem_map.1 h
  cases item <;> rfl

theorem map_mapTarget_printing (items : List Item) (f : α → β) :
    (items.flatMap printing).map (Instruction.mapTarget f) = items.flatMap printing := by
  rw [List.map_flatMap]
  exact List.flatMap_congr fun item _ => by cases item <;> rfl

theorem map_mapTarget_reading (items : List Item) (f : α → β) :
    (items.map reading).map (Instruction.mapTarget f) = items.map reading := by
  rw [List.map_map]
  exact List.map_congr_left fun item _ => by cases item <;> rfl

end Item

/-- A program that prints items. -/
theorem exists_run_of_printing {p : Program} {items : List Item}
    (hp : p.toList = items.flatMap Item.printing ∨
      p.toList = items.flatMap Item.printing ++ [.op .exit])
    (m : Machine) (input : Input) (log : Log) :
    ∃ fuel r, m.run p fuel ⟨input, {}⟩ log = some r ∧ r.result = .ok () ∧
      r.state.output.written.toList = items.flatMap Item.text := by
  obtain ⟨pc, hprinting⟩ :=
    Instruction.executeAll_printing_all (s := State.initial ⟨input, {}⟩) items rfl
  obtain ⟨fuel, r, hr, hresult, pc', hstate⟩ := Machine.exists_run_of_executeAll hp
    (fun _ hi => Item.isStraight_of_mem_printing hi) hprinting m log
  refine ⟨fuel, r, hr, hresult rfl, ?_⟩
  rw [hstate, Output.written_flush]
  simp [State.printed, State.initial]

/-- A program that reads items which have been printed. -/
theorem exists_run_of_reading {q : Program} {items : List Item}
    (hq : q.toList = items.map Item.reading ∨ q.toList = items.map Item.reading ++ [.op .exit])
    (m : Machine) (log : Log) :
    ∃ fuel r, m.run q fuel ⟨.ofBytes (items.flatMap Item.text), {}⟩ log = some r ∧
      r.result = .ok () ∧ r.state.stack.reverse = items.map Item.value ∧
      r.state.input.bytes = [] ∧
      r.state.input.consumed = (items.flatMap Item.text).length := by
  obtain ⟨t, hreading, hstack, hbytes, hconsumed, hlimit⟩ :=
    Instruction.executeAll_reading_all
      (s := State.initial ⟨.ofBytes (items.flatMap Item.text), {}⟩) items rfl
      (List.append_nil _).symm
  obtain ⟨fuel, r, hr, hresult, pc, hstate⟩ := Machine.exists_run_of_executeAll hq
    (fun _ hi => Item.isStraight_of_mem_reading hi) hreading m log
  refine ⟨fuel, r, hr, hresult (Output.canFlush_of_flushLimit_eq_none hlimit), ?_⟩
  rw [hstate]
  refine ⟨?_, hbytes, hconsumed.trans (Nat.zero_add _)⟩
  rw [hstack, List.reverse_append, List.reverse_reverse]
  rfl

/-- **What is printed is read back.**  Whatever the items are, the program that prints them
ends well, and so does the one that reads as many items of these kinds from what was
printed.  It leaves their values, the first one at the bottom, and all input is consumed. -/
theorem printed_items_read_back (items : List Item) :
    (∃ a b, SpellsOut a (items.flatMap Item.printing) ∧ SpellsOut b (items.map Item.reading)) ∧
    ∀ a b, SpellsOut a (items.flatMap Item.printing) → SpellsOut b (items.map Item.reading) →
      ∃ p q, assemble a = .ok p ∧ assemble b = .ok q ∧
        ∀ (m m' : Machine) (input : Input) (log log' : Log),
          ∃ fuel r, m.run p fuel ⟨input, {}⟩ log = some r ∧ r.result = .ok () ∧
            r.state.output.written.toList = items.flatMap Item.text ∧
            ∃ fuel' r', m'.run q fuel' ⟨.ofBytes r.state.output.written.toList, {}⟩ log' =
                some r' ∧ r'.result = .ok () ∧
              r'.state.stack.reverse = items.map Item.value ∧ r'.state.input.bytes = [] ∧
              r'.state.input.consumed = r.state.output.written.size := by
  have hprinting : ∀ c ∈ (items.flatMap Item.printing : Script), c.isStraight = true :=
    fun _ => Item.isStraight_of_mem_printing
  have hreading : ∀ c ∈ (items.map Item.reading : Script), c.isStraight = true :=
    fun _ => Item.isStraight_of_mem_reading
  obtain ⟨a₀, ha₀⟩ := exists_spellsOut hprinting
  obtain ⟨b₀, hb₀⟩ := exists_spellsOut hreading
  refine ⟨⟨a₀, b₀, ha₀, hb₀⟩, ?_⟩
  intro a b ha hb
  -- there are no labels, so it does not matter where they are
  have nowhere : Label → Target := Script.target []
  obtain ⟨p, hassemble, hp⟩ := ha.assemble_eq hprinting nowhere
  obtain ⟨q, hassemble', hq⟩ := hb.assemble_eq hreading nowhere
  rw [Item.map_mapTarget_printing] at hp
  rw [Item.map_mapTarget_reading] at hq
  refine ⟨p, q, hassemble, hassemble', ?_⟩
  intro m m' input log log'
  obtain ⟨fuel, r, hr, hresult, hwritten⟩ := exists_run_of_printing hp m input log
  obtain ⟨fuel', r', hr', hresult', hstack, hbytes, hconsumed⟩ := exists_run_of_reading hq m' log'
  refine ⟨fuel, r, hr, hresult, hwritten, fuel', r', ?_, hresult', hstack, hbytes, ?_⟩
  · rw [hwritten, hr']
  · rw [hconsumed, ← Array.length_toList, hwritten]

example : [Item.char 'é', .number (-7), .char '7'].flatMap Item.text =
    [0xC3, 0xA9, 0x2D, 0x37, 0x0A, 0x37] := by decide

end Whitespace
