import Whitespace.Assembly.Basic
import Whitespace.Proofs.Assembly.Script
import Whitespace.Proofs.Source.Cursor
import Whitespace.Proofs.Source.Located
import Whitespace.Proofs.Source.Reading

/-!
# What is decoded

Decoding the bytes of a source is decoding its located symbols
(`resume_eq_consume`), one command after the other (`consume_of_complete`).
Between two commands all that is known is the script so far: the number of
instructions and the label table can be read off it (`Reflects`), and a new
command keeps it so unless it marks a label again (`Reflects.accept`).
-/

namespace Whitespace

open Source

namespace Decoding

variable {d : Decoding} {f g : Fragment} {stop : Nat} {xs ys rest : List (Symbol × Nat)}
  {c : Spelling} {cs : Script}

/-! ## Decoding located symbols -/

/-- Goes on decoding with located symbols, in a source that is `stop` bytes long. -/
def consume (d : Decoding) (f : Fragment) (stop : Nat) : List (Symbol × Nat) → Decoding
  | [] => if f = .empty then d else { d with fault := some (.unexpectedEnd stop) }
  | (s, p) :: rest =>
    match f.feed s with
    | .pending f => d.consume f stop rest
    | .refused => { d with fault := some (.unexpectedSymbol s p) }
    | .complete c =>
      let d := d.accept c.command
      if d.fault.isSome ∨ c = .op .exit then d else d.consume .empty stop rest

theorem resume_eq_consume (d : Decoding) (f : Fragment) (offset : Nat) (bytes : List UInt8) :
    d.resume f offset bytes = d.consume f (offset + bytes.length) (located offset bytes) := by
  induction bytes generalizing d f offset with
  | nil => rfl
  | cons b bytes ih =>
    rw [add_length_cons]
    cases hb : Symbol.ofByte? b with
    | none => simpa only [resume, located, hb] using ih d f (offset + 1)
    | some s =>
      cases hs : f.feed s with
      | pending g => simpa only [resume, located, consume, hb, hs] using ih d g (offset + 1)
      | refused => simp only [resume, located, consume, hb, hs]
      | complete c => simp only [resume, located, consume, hb, hs, ih]

theorem ofSource_eq_consume (source : List UInt8) :
    ofSource source = consume {} .empty source.length (located 0 source) := by
  rw [ofSource, resume_eq_consume, Nat.zero_add]

/-- **Decoding reads what a cursor hands out,** so the offsets it reports are positions
of a cursor. -/
theorem ofSource_eq_consume_drain (source : List UInt8) :
    ofSource source = consume {} .empty (Cursor.ofSource source).sourceLength
      (Cursor.ofSource source).drain.1 := by
  rw [ofSource_eq_consume, Cursor.sourceLength_ofSource, Cursor.drain_eq]
  rfl

theorem consume_of_pending (h : f.feedAll (ys.map Prod.fst) = .pending g) :
    d.consume f stop (ys ++ rest) = d.consume g stop rest := by
  induction ys generalizing f with
  | nil => cases h; rfl
  | cons y ys ih =>
    obtain ⟨f', hs, hys⟩ := Fragment.feedAll_cons_eq_pending h
    rw [List.cons_append, consume, hs]
    exact ih hys

theorem consume_of_refused {s : Symbol} {p : Nat}
    (h : f.feedAll (ys.map Prod.fst) = .pending g) (hs : g.feed s = .refused) :
    d.consume f stop (ys ++ (s, p) :: rest) =
      { d with fault := some (.unexpectedSymbol s p) } := by
  rw [consume_of_pending h, consume, hs]

/-- A command that is complete is taken in, and decoding goes on unless it was
the exit or marked a label again. -/
theorem consume_of_complete (h : f.feedAll (ys.map Prod.fst) = .complete c) :
    d.consume f stop (ys ++ rest) =
      if (d.accept c.command).fault.isSome ∨ c = .op .exit then d.accept c.command
      else (d.accept c.command).consume .empty stop rest := by
  induction ys generalizing f with
  | nil => cases h
  | cons y ys ih =>
    rcases Fragment.feedAll_cons_eq_complete h with ⟨f', hs, hys⟩ | ⟨hs, hnil⟩
    · rw [List.cons_append, consume, hs]
      exact ih hys
    · rw [List.map_eq_nil_iff] at hnil
      subst hnil
      rw [List.cons_append, consume, hs]
      rfl

/-! ## Taking a command in -/

@[simp] theorem commands_accept (d : Decoding) (c : Command) :
    (d.accept c).commands = d.commands ++ [c] := by
  cases c with
  | mark l => by_cases h : d.labels.contains l = true <;> simp [accept, commands, h]
  | _ => simp [accept, commands]

/-- What has been decoded stays. -/
theorem commands_prefix_consume (d : Decoding) (f : Fragment) (stop : Nat)
    (xs : List (Symbol × Nat)) : d.commands <+: (d.consume f stop xs).commands := by
  induction xs generalizing d f with
  | nil =>
    rw [consume]
    split <;> exact List.prefix_refl _
  | cons x xs ih =>
    obtain ⟨s, p⟩ := x
    rw [consume]
    cases f.feed s with
    | pending g => exact ih d g
    | refused => exact List.prefix_refl _
    | complete c =>
      have haccept : d.commands <+: (d.accept c.command).commands := by
        rw [commands_accept]
        exact List.prefix_append _ _
      dsimp only
      split
      · exact haccept
      · exact haccept.trans (ih _ _)

/-- What is known of a decoding that has met no fault: it holds a script, and
all else can be read off the script. -/
structure Reflects (d : Decoding) (cs : Script) : Prop where
  commands : d.commands = cs
  size : d.size = cs.slots
  labels : ∀ l, d.labels.find? l = if l ∈ cs.marks then some (cs.address l) else none
  nodup : cs.marks.Nodup
  fault : d.fault = none

namespace Reflects

theorem empty : Reflects {} [] := ⟨rfl, rfl, fun _ => rfl, List.nodup_nil, rfl⟩

theorem contains_iff (h : Reflects d cs) (l : Label) :
    d.labels.contains l = true ↔ l ∈ cs.marks := by
  rw [Labels.contains, h.labels l]
  split <;> simp [*]

/-- A mark of a new label binds it to the number of instructions so far. -/
theorem accept_mark (h : Reflects d cs) {l : Label} (hl : l ∉ cs.marks) :
    Reflects (d.accept (.mark l)) (cs ++ [.mark l]) := by
  have hnew : d.labels.contains l = false := by
    rw [← Bool.not_eq_true, h.contains_iff]
    exact hl
  have hmarks := Script.marks_concat_mark cs l
  refine ⟨by rw [commands_accept, h.commands], ?_, fun m => ?_, ?_, ?_⟩
  · simp [accept, hnew, h.size, Script.slots_singleton, Instruction.isMark]
  · have hfind : (d.accept (.mark l)).labels.find? m =
        if m = l then some d.size else d.labels.find? m := by
      simp only [accept, hnew, Bool.false_eq_true, ↓reduceIte, Labels.find?_insert]
    rw [hfind, hmarks]
    by_cases hm : m = l
    · subst hm
      simp [h.size, Script.address_append_mark hl]
    · by_cases hmem : m ∈ cs.marks
      · simp [hm, hmem, h.labels m, Script.address_append_of_mem hmem]
      · simp [hm, hmem, h.labels m]
  · refine Script.nodup_marks_concat_iff.2 ⟨h.nodup, ?_⟩
    rintro m hm
    cases hm
    exact hl
  · simp [accept, hnew, h.fault]

theorem accept_of_not_mark (h : Reflects d cs) {c : Command} (hc : c.isMark = false) :
    Reflects (d.accept c) (cs ++ [c]) := by
  have hmarks := Script.marks_concat_of_not_mark cs hc
  have haccept : d.accept c =
      { d with decoded := d.decoded.push (d.size, c), size := d.size + 1 } := by
    cases c <;> simp_all [accept, Instruction.isMark]
  refine ⟨by rw [commands_accept, h.commands], ?_, fun m => ?_, ?_, ?_⟩
  · simp [haccept, h.size, Script.slots_singleton, hc]
  · rw [haccept, hmarks, h.labels m]
    by_cases hmem : m ∈ cs.marks
    · simp [hmem, Script.address_append_of_mem hmem]
    · simp [hmem]
  · rw [hmarks]
    exact h.nodup
  · rw [haccept]
    exact h.fault

/-- **A new command keeps the decoding in step with its script**, unless it
marks a label again. -/
theorem accept (h : Reflects d cs) {c : Command} (hc : (Script.marks (cs ++ [c])).Nodup) :
    Reflects (d.accept c) (cs ++ [c]) := by
  cases hm : c.isMark with
  | false => exact h.accept_of_not_mark hm
  | true =>
    obtain ⟨l, rfl⟩ := Instruction.isMark_iff.1 hm
    exact h.accept_mark ((Script.nodup_marks_concat_iff.1 hc).2 l rfl)

/-- A second mark of a label is a fault. -/
theorem fault_accept_mark (h : Reflects d cs) {l : Label} (hl : l ∈ cs.marks) :
    (d.accept (.mark l)).fault = some (.duplicateLabel l) := by
  have hold := (h.contains_iff l).2 hl
  simp only [Decoding.accept, hold, ↓reduceIte]

end Reflects

end Decoding

end Whitespace
