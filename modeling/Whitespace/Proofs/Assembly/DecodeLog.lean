import Whitespace.Proofs.Assembly.SyntaxErrors
import Whitespace.Proofs.Assembly.WellFormed

/-!
# What a log tells of a source

The commands that are completely read in a source, up to the place where its reading stops
(`Source.Decodes`), are those that decoding keeps, in their order, be the source accepted or
not (`Source.Decodes.commands`).  Each of them is kept with the number of instructions before
it, and all that is counted can be counted in them (`Decoding.Counted`).  The number of labels
is that of marks only as long as there is no fault: a label that is marked again is kept as a
command and not as a label.
-/

namespace Whitespace

open Source

/-! ## Commands with their numbers -/

namespace Script

/-- The commands, each with the number of instructions before it. -/
def numbered (cs : Script) : List (Nat × Command) := cs.mapIdx fun k c => (cs.slotAt k, c)

variable {cs : Script} {c : Command} {l : Label} {k n : Nat}

theorem numbered_concat (cs : Script) (c : Command) :
    numbered (cs ++ [c]) = cs.numbered ++ [(cs.slots, c)] := by
  rw [numbered, List.mapIdx_concat]
  congr 1
  · refine List.ext_getElem? fun k => ?_
    rw [numbered, List.getElem?_mapIdx, List.getElem?_mapIdx]
    cases hk : cs[k]? with
    | none => rfl
    | some d =>
      rw [Option.map_some, Option.map_some,
        slotAt_append_of_le (Nat.le_of_lt (List.getElem?_eq_some_iff.1 hk).1)]
  · rw [slotAt_append_of_le (Nat.le_refl _), slotAt_of_length_le (Nat.le_refl _)]

@[simp] theorem map_snd_numbered (cs : Script) : cs.numbered.map Prod.snd = cs := by
  induction cs using List.reverseRecOn with
  | nil => rfl
  | append_singleton cs c ih => rw [numbered_concat, List.map_append, ih]; rfl

theorem mem_numbered_iff : (n, c) ∈ cs.numbered ↔ ∃ k, cs[k]? = some c ∧ n = cs.slotAt k := by
  rw [numbered, List.mem_mapIdx]
  constructor
  · rintro ⟨k, hk, h⟩
    cases h
    exact ⟨k, List.getElem?_eq_getElem hk, rfl⟩
  · rintro ⟨k, hk, rfl⟩
    obtain ⟨hlt, rfl⟩ := List.getElem?_eq_some_iff.1 hk
    exact ⟨k, hlt, rfl⟩

/-- The mark of a label that is marked once stands where the label's address is counted. -/
theorem slotAt_of_mark (hnd : cs.marks.Nodup) (h : cs[k]? = some (.mark l)) :
    cs.slotAt k = cs.address l := by
  obtain ⟨hk, hget⟩ := List.getElem?_eq_some_iff.1 h
  have hsplit : cs = cs.take k ++ .mark l :: cs.drop (k + 1) := by
    rw [← hget, ← List.drop_eq_getElem_cons hk, List.take_append_drop]
  have hnew : l ∉ marks (cs.take k) := by
    rw [hsplit, marks_append] at hnd
    intro hl
    exact List.disjoint_of_nodup_append hnd hl List.mem_cons_self
  conv => rhs; rw [hsplit]
  rw [address_append_of_notMem hnew, address, List.idxOf_cons_self]
  rfl

theorem mem_numbered_mark_iff (hnd : cs.marks.Nodup) (hl : l ∈ cs.marks) :
    (n, .mark l) ∈ cs.numbered ↔ n = cs.address l := by
  rw [mem_numbered_iff]
  constructor
  · rintro ⟨k, hk, rfl⟩
    exact slotAt_of_mark hnd hk
  · rintro rfl
    obtain ⟨k, hk⟩ := List.mem_iff_getElem?.1 (mem_marks.1 hl)
    exact ⟨k, hk, (slotAt_of_mark hnd hk).symm⟩

end Script

/-! ## What decoding counts -/

namespace Decoding

/-- What a decoding counts is counted in its commands. -/
structure Counted (d : Decoding) : Prop where
  decoded : d.decoded.toList = Script.numbered d.commands
  size : d.size = Script.slots d.commands
  labels : d.fault = none → d.labels.size = (Script.marks d.commands).length

namespace Counted

variable {d : Decoding} {stop : Nat}

theorem empty : Counted {} := ⟨rfl, rfl, fun _ => rfl⟩

theorem setFault (h : Counted d) (e : AssemblyError) : Counted { d with fault := some e } :=
  ⟨h.decoded, h.size, nofun⟩

/-- A command is counted, even if it is the mark of a label that was marked before. -/
theorem accept (h : Counted d) (hd : d.fault = none) (c : Command) : Counted (d.accept c) := by
  have hdecoded : (d.accept c).decoded = d.decoded.push (d.size, c) := by
    cases c with
    | mark l => by_cases hl : d.labels.contains l = true <;> simp [Decoding.accept, hl]
    | _ => rfl
  refine ⟨?_, ?_, ?_⟩
  · rw [hdecoded, Array.toList_push, h.decoded, commands_accept, Script.numbered_concat, h.size]
  · rw [commands_accept, Script.slots_append, ← h.size, Script.slots_singleton]
    cases c with
    | mark l =>
      by_cases hl : d.labels.contains l = true <;> simp [Decoding.accept, hl, Instruction.isMark]
    | _ => rfl
  · intro hfault
    rw [commands_accept, Script.marks_append, List.length_append, ← h.labels hd]
    cases c with
    | mark l =>
      by_cases hl : d.labels.contains l = true
      · simp [Decoding.accept, hl] at hfault
      · simp [Decoding.accept, hl]
        rfl
    | _ => rfl

/-- **Decoding counts its commands**, wherever it stops. -/
theorem consume (h : Counted d) (hd : d.fault = none) (f : Fragment) (stop : Nat)
    (xs : List (Symbol × Nat)) : Counted (d.consume f stop xs) := by
  induction xs generalizing d f with
  | nil =>
    rw [Decoding.consume]
    split
    · exact h
    · exact h.setFault _
  | cons x xs ih =>
    obtain ⟨s, p⟩ := x
    rw [Decoding.consume]
    cases f.feed s with
    | pending g => exact ih h hd g
    | refused => exact h.setFault _
    | complete c =>
      have haccept := h.accept hd c.command
      dsimp only
      split
      · exact haccept
      · next hgoes =>
        refine ih haccept ?_ .empty
        rw [not_or, Bool.not_eq_true, Option.isSome_eq_false_iff,
          Option.isNone_iff_eq_none] at hgoes
        exact hgoes.1

end Counted

theorem counted_ofSource (source : List UInt8) : Counted (ofSource source) := by
  rw [ofSource_eq_consume]
  exact Counted.empty.consume rfl _ _ _

end Decoding

/-! ## What is completely read -/

namespace Source

/-- The commands that are completely read in a source before its reading stops, and the error
that it stops with if there is one. -/
inductive Decodes (source : List UInt8) : List Spelling → Option AssemblyError → Prop
  /-- The source ends between two commands. -/
  | ended {cs : List Spelling} (hcs : Passed cs)
      (h : symbols source = cs.flatMap Spelling.symbols) : Decodes source cs none
  /-- An exit comes, and what follows it is not looked at. -/
  | exited {cs : List Spelling} {w : List Symbol} (hcs : Passed cs)
      (h : symbols source = cs.flatMap Spelling.symbols ++ ((Spelling.op .exit).symbols ++ w)) :
      Decodes source (cs ++ [.op .exit]) none
  /-- No command goes on with the symbol at an offset.  The one that was begun is not read. -/
  | refused {cs : List Spelling} {q : List Symbol} {x : Symbol} {p : Nat}
      (hbyte : source[p]? = some x.toByte) (h : BreaksOff (symbols (source.take p)) cs q)
      (hx : ∀ c : Spelling, ¬ q ++ [x] <+: c.symbols) :
      Decodes source cs (some (.unexpectedSymbol x p))
  /-- The source ends inside of a command, which is not read. -/
  | brokenOff {cs : List Spelling} {q : List Symbol} (h : BreaksOff (symbols source) cs q) :
      Decodes source cs (some (.unexpectedEnd source.length))
  /-- A label is marked again.  Its second mark is read all the same. -/
  | again {cs : List Spelling} {bits : List Bit} {w : List Symbol} (hcs : Passed cs)
      (hl : Label.ofBits bits ∈ (Script.ofSpellings cs).marks)
      (h : symbols source =
        cs.flatMap Spelling.symbols ++ ((Spelling.label .mark bits).symbols ++ w)) :
      Decodes source (cs ++ [.label .mark bits]) (some (.duplicateLabel (.ofBits bits)))

variable {source : List UInt8} {cs : List Spelling} {e : Option AssemblyError}

/-- A reading stops somewhere. -/
theorem exists_decodes (source : List UInt8) :
    ∃ cs, Decodes source cs (Decoding.ofSource source).fault := by
  obtain ⟨cs, hcs, ys, rest, hsplit, hys, hstops⟩ := Decoding.fault_ofSource_eq_iff.1
    (rfl : (Decoding.ofSource source).fault = (Decoding.ofSource source).fault)
  generalize (Decoding.ofSource source).fault = e at hstops ⊢
  have hsymbols : symbols source = cs.flatMap Spelling.symbols ++ rest.map Prod.fst := by
    rw [← map_fst_located 0, hsplit, List.map_append, hys]
  cases hstops with
  | ended => exact ⟨cs, .ended hcs (hsymbols.trans (List.append_nil _))⟩
  | exited hus =>
    rw [List.map_append, hus] at hsymbols
    exact ⟨_, .exited hcs hsymbols⟩
  | @refused us vs x p hne hbegun hx =>
    rw [← List.append_assoc] at hsplit
    obtain ⟨hbyte, hbefore⟩ := exists_located_eq_iff.1 ⟨ys ++ us, vs, hsplit, rfl⟩
    rw [List.map_append, hys] at hbefore
    exact ⟨cs, .refused hbyte ⟨hcs, hbefore, hne, hbegun⟩ hx⟩
  | brokenOff hne hbegun => exact ⟨cs, .brokenOff ⟨hcs, hsymbols, hne, hbegun⟩⟩
  | again hus hl =>
    rw [List.map_append, hus] at hsymbols
    exact ⟨_, .again hcs hl hsymbols⟩

end Source

namespace Decoding

variable {source : List UInt8} {cs : List Spelling} {e : Option AssemblyError}

/-- **Decoding keeps what is completely read**, and nothing else. -/
theorem of_decodes (h : Decodes source cs e) :
    (ofSource source).commands = Script.ofSpellings cs ∧ (ofSource source).fault = e := by
  cases h with
  | ended hcs h =>
    have hspells : Spells source cs := ⟨hcs.nodup, .inl ⟨hcs.notMem, h⟩⟩
    exact ⟨hspells.reflects.commands, hspells.reflects.fault⟩
  | exited hcs h =>
    have hspells := Spells.of_exit hcs.notMem hcs.nodup h
    exact ⟨hspells.reflects.commands, hspells.reflects.fault⟩
  | refused hbyte h hx =>
    obtain ⟨hcs, hsymbols, -, hbegun⟩ := h
    obtain ⟨zs, vs, hsplit, hzs⟩ := exists_located_eq_iff.2 ⟨hbyte, hsymbols⟩
    obtain ⟨ys, us, rfl, hys, rfl⟩ := List.map_eq_append_iff.1 hzs
    obtain ⟨d, hd, hconsume⟩ := exists_reflects_of_passed hcs hys source.length
    rw [ofSource_eq_consume, hsplit, List.append_assoc, hconsume,
      consume_of_begun_of_refused hbegun hx]
    exact ⟨hd.commands, rfl⟩
  | brokenOff h =>
    obtain ⟨hcs, hsymbols, hne, hbegun⟩ := h
    obtain ⟨d, rest, hd, rfl, hsource⟩ := exists_reflects_of_symbols hcs hsymbols
    rw [hsource, consume_of_begun hne hbegun]
    exact ⟨hd.commands, rfl⟩
  | again hcs hl h =>
    obtain ⟨d, _, hd, hsource⟩ := exists_accept_of_symbols hcs _ h
    have hfault := hd.fault_accept_mark hl
    rw [hsource, Spelling.command, if_pos (.inl (by rw [hfault]; rfl)), commands_accept,
      hd.commands, Script.ofSpellings_append]
    exact ⟨rfl, hfault⟩

end Decoding

/-! ## The log -/

/-- The command that an event tells of. -/
def Event.command? : Event → Option Command
  | decoded _ c => some c
  | _ => none

/-- All that is reported of assembling a source. -/
def assemblyEvents (source : List UInt8) : List Event :=
  (assembleLogged source ⟨.trace, #[]⟩).2.events.toList

/-- The events of the commands of a script. -/
def Script.events (cs : Script) : List Event :=
  cs.numbered.map fun (index, c) => .decoded index c

namespace Script

variable {cs : Script} {c : Command} {n : Nat}

theorem mem_events_iff : .decoded n c ∈ cs.events ↔ (n, c) ∈ cs.numbered := by
  simp [events]

theorem filterMap_command?_events (cs : Script) : cs.events.filterMap Event.command? = cs := by
  have hcomp : (Event.command? ∘ fun (index, c) => .decoded index c) =
      some ∘ (Prod.snd : Nat × Command → Command) := rfl
  rw [events, List.filterMap_map, hcomp, List.filterMap_eq_map, map_snd_numbered]

/-- Linking touches the labels of branches only, and keeps them in their targets. -/
theorem map_label_linked (cs : Script) :
    cs.linked.map (Instruction.mapTarget Target.label) = cs.filter fun c => !c.isMark := by
  have hlabel : Target.label ∘ cs.target = id := rfl
  rw [linked, List.map_map]
  refine (List.map_congr_left fun c _ => ?_).trans (List.map_id _)
  rw [Function.comp_apply, Instruction.mapTarget_mapTarget, hlabel, Instruction.mapTarget_id]
  rfl

end Script

section

variable {source : List UInt8} {cs : List Spelling} {e : Option AssemblyError} {p : Program}

theorem assemblyEvents_of_decodes (h : Decodes source cs e) :
    assemblyEvents source = (Script.ofSpellings cs).events ++
      if e = none then
        [.decodedSource (Script.ofSpellings cs).slots (Script.ofSpellings cs).marks.length]
      else [] := by
  obtain ⟨hcommands, hfault⟩ := Decoding.of_decodes h
  have hcounted := Decoding.counted_ofSource source
  rw [assemblyEvents, assembleLogged, Log.events_recordAll_trace, Decoding.events, hcounted.decoded,
    hcommands, hfault, hcounted.size, hcommands]
  cases e with
  | some err => rfl
  | none => rw [hcounted.labels hfault, hcommands]; rfl

/-- The events of commands are those of the commands of a source. -/
theorem filterMap_command?_assemblyEvents (source : List UInt8) :
    (assemblyEvents source).filterMap Event.command? = (Decoding.ofSource source).commands := by
  obtain ⟨cs, hcs⟩ := exists_decodes source
  rw [assemblyEvents_of_decodes hcs, (Decoding.of_decodes hcs).1, List.filterMap_append,
    Script.filterMap_command?_events]
  split
  · exact List.append_nil _
  · exact List.append_nil _

theorem decoded_mem_assemblyEvents_iff {n : Nat} {c : Command} :
    .decoded n c ∈ assemblyEvents source ↔
      (n, c) ∈ Script.numbered (Decoding.ofSource source).commands := by
  obtain ⟨cs, hcs⟩ := exists_decodes source
  rw [assemblyEvents_of_decodes hcs, (Decoding.of_decodes hcs).1, List.mem_append,
    Script.mem_events_iff, or_iff_left]
  split <;> simp

/-- **The events and the program agree**: the commands that are no marks are its instructions,
and its targets lead to where their labels are marked. -/
theorem assemblyEvents_of_assemble (h : assemble source = .ok p) :
    ((assemblyEvents source).filterMap Event.command?).filter (fun c => !c.isMark) =
      p.toList.map (Instruction.mapTarget Target.label) ∧
    ∀ t ∈ p.targets, ∀ n, .decoded n (.mark t.label) ∈ assemblyEvents source ↔ n = t.index := by
  obtain ⟨cs, hcs, hmarked, rfl⟩ := assemble_eq_ok_iff.1 h
  have hcommands := hcs.reflects.commands
  refine ⟨?_, ?_⟩
  · rw [filterMap_command?_assemblyEvents, hcommands, Program.toList_ofList,
      Script.map_label_linked]
  · intro t ht n
    rw [Script.targets_linked] at ht
    obtain ⟨l, hl, rfl⟩ := List.mem_map.1 ht
    rw [decoded_mem_assemblyEvents_iff, hcommands]
    exact Script.mem_numbered_mark_iff hcs.reflects.nodup (hmarked l hl)

end

/-- **The log tells what is decoded.**  A source is read up to its end, its first exit or its
first error, and there is an event for each command that is completely read, in their order
and with the number of instructions before it.  An event with the numbers of instructions and
marks follows iff there is no error, even if a label is missing that only linking looks for.
If there is a program, it has the commands that are no marks for its instructions, and its
targets have the numbers of the marks of their labels. -/
theorem decode_log_tells_source (source : List UInt8) :
    (∃ cs e, Decodes source cs e) ∧
    (∀ cs e, Decodes source cs e →
      (assemblyEvents source = (Script.ofSpellings cs).events ++
        if e = none then
          [.decodedSource (Script.ofSpellings cs).slots (Script.ofSpellings cs).marks.length]
        else []) ∧
      (∀ err, e = some err → assemble source = .error err) ∧
      (e = none → (∃ p, assemble source = .ok p) ∨
        ∃ l, assemble source = .error (.labelNotFound l))) ∧
    ∀ p, assemble source = .ok p →
      ((assemblyEvents source).filterMap Event.command?).filter (fun c => !c.isMark) =
        p.toList.map (Instruction.mapTarget Target.label) ∧
      ∀ t ∈ p.targets, ∀ n,
        .decoded n (.mark t.label) ∈ assemblyEvents source ↔ n = t.index := by
  obtain ⟨cs, hcs⟩ := exists_decodes source
  refine ⟨⟨cs, _, hcs⟩, ?_, fun p hp => assemblyEvents_of_assemble hp⟩
  intro cs e h
  have hfault := (Decoding.of_decodes h).2
  refine ⟨assemblyEvents_of_decodes h, ?_, ?_⟩
  · rintro err rfl
    exact assemble_of_fault hfault
  · rintro rfl
    cases hassemble : assemble source with
    | ok p => exact .inl ⟨p, rfl⟩
    | error err =>
      obtain ⟨l, rfl⟩ := exists_labelNotFound hfault hassemble
      exact .inr ⟨l, rfl⟩

/-- A label that is marked again is told of, but the numbers are not. -/
example : assemblyEvents (ofSymbols
      [.lf, .space, .space, .space, .lf, .lf, .space, .space, .space, .lf]) =
    [.decoded 0 (.mark (.ofBits [.zero])), .decoded 0 (.mark (.ofBits [.zero]))] := by decide

end Whitespace
