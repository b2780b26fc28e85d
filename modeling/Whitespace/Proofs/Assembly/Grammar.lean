import Whitespace.Proofs.Assembly.Linking
import Whitespace.Proofs.Assembly.Stopping

/-!
# The grammar of sources

A source spells a sequence of commands if its symbols are the spellings of these
commands, up to its end or up to the first exit, and no label is marked twice
(`Spells`).  Decoding succeeds on exactly these sources, finds exactly these
commands, and there is no second way to read them
(`decoding_accepts_grammar`).
-/

namespace Whitespace

open Source

/-- The commands that a word of symbols spells up to its end or its first exit. -/
inductive Spelled : List Spelling → List Symbol → Prop
  | nil : Spelled [] []
  | exit (rest : List Symbol) : Spelled [.op .exit] ((Spelling.op .exit).symbols ++ rest)
  | cons {c : Spelling} {cs : List Spelling} {w : List Symbol} (hc : c ≠ .op .exit)
      (h : Spelled cs w) : Spelled (c :: cs) (c.symbols ++ w)

/-- A source that consists of these spelled commands, comments aside.  If it has
an exit, that is the last command, and anything may follow it. -/
def Spells (source : List UInt8) (cs : List Spelling) : Prop :=
  (Script.ofSpellings cs).marks.Nodup ∧
    ((.op .exit ∉ cs ∧ symbols source = cs.flatMap Spelling.symbols) ∨
      ∃ body rest, cs = body ++ [.op .exit] ∧ .op .exit ∉ body ∧
        symbols source = cs.flatMap Spelling.symbols ++ rest)

namespace Spelled

variable {cs cs' : List Spelling} {w : List Symbol}

/-- A word of symbols is read in one way. -/
theorem unique (h : Spelled cs w) (h' : Spelled cs' w) : cs = cs' := by
  induction h generalizing cs' with
  | nil =>
    generalize hw : ([] : List Symbol) = w at h'
    cases h' with
    | nil => rfl
    | exit rest => cases hw
    | @cons c _ _ hc _ =>
      have hnil := (List.append_eq_nil_iff.1 hw.symm).1
      exact absurd hnil c.symbols_ne_nil
  | exit rest =>
    generalize hw : (Spelling.op .exit).symbols ++ rest = w at h'
    cases h' with
    | nil => cases hw
    | exit rest' => rfl
    | cons hc _ => exact absurd (Spelling.eq_of_symbols_append_eq hw).1.symm hc
  | @cons c cs v hc _ ih =>
    generalize hw : c.symbols ++ v = w at h'
    cases h' with
    | nil => exact absurd (List.append_eq_nil_iff.1 hw).1 c.symbols_ne_nil
    | exit rest' => exact absurd (Spelling.eq_of_symbols_append_eq hw).1 hc
    | cons _ h' =>
      obtain ⟨rfl, rfl⟩ := Spelling.eq_of_symbols_append_eq hw
      rw [ih h']

/-- Commands without an exit can be spelled before any others. -/
theorem append {v : List Symbol} (hopen : .op .exit ∉ cs) (h : Spelled cs' v) :
    Spelled (cs ++ cs') (cs.flatMap Spelling.symbols ++ v) := by
  induction cs with
  | nil => exact h
  | cons c cs ih =>
    rw [List.mem_cons, not_or] at hopen
    rw [List.cons_append, List.flatMap_cons, List.append_assoc]
    exact .cons (Ne.symm hopen.1) (ih hopen.2)

theorem of_open (h : .op .exit ∉ cs) : Spelled cs (cs.flatMap Spelling.symbols) := by
  simpa using append h .nil

theorem of_exit (h : .op .exit ∉ cs) (rest : List Symbol) :
    Spelled (cs ++ [Spelling.op .exit])
      ((cs ++ [Spelling.op .exit]).flatMap Spelling.symbols ++ rest) := by
  simpa using append h (.exit rest)

/-- The two ways to end: with the source, or with the exit. -/
theorem iff : Spelled cs w ↔
    (.op .exit ∉ cs ∧ w = cs.flatMap Spelling.symbols) ∨
      ∃ body rest, cs = body ++ [.op .exit] ∧ .op .exit ∉ body ∧
        w = cs.flatMap Spelling.symbols ++ rest := by
  constructor
  · intro h
    induction h with
    | nil => exact .inl ⟨List.not_mem_nil, rfl⟩
    | exit rest => exact .inr ⟨[], rest, rfl, List.not_mem_nil, rfl⟩
    | @cons c _ _ hc _ ih =>
      rcases ih with ⟨hopen, rfl⟩ | ⟨body, rest, rfl, hopen, rfl⟩
      · exact .inl ⟨by simp [hopen, Ne.symm hc], rfl⟩
      · exact .inr ⟨c :: body, rest, rfl, by simp [hopen, Ne.symm hc], by simp⟩
  · rintro (⟨hopen, rfl⟩ | ⟨body, rest, rfl, hopen, rfl⟩)
    · exact of_open hopen
    · exact of_exit hopen rest

end Spelled

theorem spells_iff {source : List UInt8} {cs : List Spelling} :
    Spells source cs ↔
      (Script.ofSpellings cs).marks.Nodup ∧ Spelled cs (symbols source) := by
  rw [Spells, Spelled.iff]

/-- Commands that mark nothing twice are spelled up to an exit that follows them. -/
theorem Spells.of_exit {source : List UInt8} {cs : List Spelling} {w : List Symbol}
    (hopen : .op .exit ∉ cs) (hnd : (Script.ofSpellings cs).marks.Nodup)
    (h : symbols source = cs.flatMap Spelling.symbols ++ ((Spelling.op .exit).symbols ++ w)) :
    Spells source (cs ++ [.op .exit]) := by
  refine ⟨?_, .inr ⟨cs, w, rfl, hopen, ?_⟩⟩
  · rw [Script.ofSpellings_append]
    exact Script.nodup_marks_concat_iff.2 ⟨hnd, fun l hl => by cases hl⟩
  · rw [h, List.flatMap_append, List.flatMap_singleton, List.append_assoc]

/-! ## Decoding and the grammar -/

theorem Spells.reflects {source : List UInt8} {cs : List Spelling} (h : Spells source cs) :
    (Decoding.ofSource source).Reflects (Script.ofSpellings cs) := by
  obtain ⟨hnd, ⟨hopen, hsymbols⟩ | ⟨body, rest, rfl, hopen, hsymbols⟩⟩ := h
  · rw [← List.append_nil (cs.flatMap _)] at hsymbols
    obtain ⟨d, rest, hd, hrest, hsource⟩ :=
      Decoding.exists_reflects_of_symbols ⟨hopen, hnd⟩ hsymbols
    rw [List.map_eq_nil_iff.1 hrest] at hsource
    rw [hsource]
    exact hd
  -- what follows the commands before the exit is the exit, and nothing is read behind it
  · rw [List.flatMap_append, List.flatMap_singleton, List.append_assoc] at hsymbols
    rw [Script.ofSpellings_append] at hnd ⊢
    have hbody : Passed body := ⟨hopen, (Script.marks_append ▸ hnd).of_append_left⟩
    obtain ⟨d, _, hd, hsource⟩ := Decoding.exists_accept_of_symbols hbody _ hsymbols
    rw [hsource, if_pos (.inr rfl)]
    exact hd.accept hnd

theorem exists_spells_of_fault_eq_none {source : List UInt8}
    (h : (Decoding.ofSource source).fault = none) : ∃ cs, Spells source cs := by
  obtain ⟨cs, hcs, ys, rest, hsplit, hys, hstops⟩ := Decoding.fault_ofSource_eq_iff.1 h
  have hsymbols : symbols source = cs.flatMap Spelling.symbols ++ rest.map Prod.fst := by
    rw [← map_fst_located 0, hsplit, List.map_append, hys]
  cases hstops with
  | ended => exact ⟨cs, hcs.nodup, .inl ⟨hcs.notMem, hsymbols.trans (List.append_nil _)⟩⟩
  | @exited us vs hus =>
    rw [List.map_append, hus] at hsymbols
    exact ⟨_, .of_exit hcs.notMem hcs.nodup hsymbols⟩

/-- A source is assembled if it spells commands whose branch labels are marked,
and into the linked script of these commands. -/
theorem assemble_eq_ok_iff {source : List UInt8} {p : Program} :
    assemble source = .ok p ↔ ∃ cs, Spells source cs ∧
      (∀ l ∈ (Script.ofSpellings cs).branchLabels, l ∈ (Script.ofSpellings cs).marks) ∧
      p = Program.ofList (Script.ofSpellings cs).linked := by
  constructor
  · intro h
    have hfault : (Decoding.ofSource source).fault = none := by
      rw [assemble, Decoding.program] at h
      split at h
      · cases h
      · assumption
    obtain ⟨cs, hcs⟩ := exists_spells_of_fault_eq_none hfault
    exact ⟨cs, hcs, hcs.reflects.program_eq_ok_iff.1 h⟩
  · rintro ⟨cs, hcs, h⟩
    exact hcs.reflects.program_eq_ok_iff.2 h

/-- Without marks and branches the commands are linked one by one. -/
theorem Spells.assemble_of_plain {source : List UInt8} {sp : List Spelling} {cs : Script}
    (h : Spells source sp) (hcs : Script.ofSpellings sp = cs)
    (hplain : ∀ c ∈ cs, c.isMark = false ∧ c.target? = none) (f : Label → Target) :
    assemble source = .ok (Program.ofList (cs.map (Instruction.mapTarget f))) := by
  have hlabels := Script.branchLabels_eq_nil fun c hc => (hplain c hc).2
  refine assemble_eq_ok_iff.2 ⟨sp, h, ?_, ?_⟩
  · rw [hcs, hlabels]
    exact fun _ h => absurd h List.not_mem_nil
  · rw [hcs, Script.linked_of_not_mark fun c hc => (hplain c hc).1]
    congr 1
    refine List.map_congr_left fun c hc => Instruction.mapTarget_congr ?_
    rintro kind l rfl
    cases (hplain _ hc).2

/-- **Decoding accepts exactly the grammar and reads it in one way.**  If every
branch label is marked, the program is the script without its marks, each label
with the number of instructions before its mark. -/
theorem decoding_accepts_grammar (source : List UInt8) :
    ((Decoding.ofSource source).fault = none ↔ ∃ cs, Spells source cs) ∧
      (∀ cs cs', Spells source cs → Spells source cs' → cs = cs') ∧
      ∀ cs, Spells source cs →
        (Decoding.ofSource source).commands = Script.ofSpellings cs ∧
          ((∀ l ∈ (Script.ofSpellings cs).branchLabels, l ∈ (Script.ofSpellings cs).marks) →
            assemble source = .ok (Program.ofList (Script.ofSpellings cs).linked)) := by
  refine ⟨?_, ?_, ?_⟩
  · constructor
    · exact exists_spells_of_fault_eq_none
    · rintro ⟨cs, h⟩
      exact h.reflects.fault
  · intro cs cs' h h'
    have hs := (spells_iff.1 h).2
    have hs' := (spells_iff.1 h').2
    exact hs.unique hs'
  · intro cs h
    refine ⟨h.reflects.commands, ?_⟩
    intro hl
    exact assemble_eq_ok_iff.2 ⟨cs, h, hl, rfl⟩

/-! ## An accepted source -/

namespace Countdown

/-- Counts from two down to zero.  The loop starts at the empty label and ends by
a branch to the end of the source, and a subroutine takes one away. -/
def spelled : List Spelling :=
  [.push ⟨.zero, [.one, .zero]⟩,
   .label .mark [], .label (.branch .call) [.one], .op .dup,
   .label (.branch .jumpIfZero) [.zero], .label (.branch .jump) [],
   .label .mark [.one], .push ⟨.zero, [.one]⟩, .op (.arith .sub), .op .ret,
   .label .mark [.zero]]

/-- The source without comments. -/
def source : List UInt8 := ofSymbols (spelled.flatMap Spelling.symbols)

/-- What it is assembled into. -/
def program : Program := Program.ofList
  [.push 2, .branch .call ⟨⟨"T"⟩, 5⟩, .op .dup, .branch .jumpIfZero ⟨⟨"S"⟩, 8⟩,
   .branch .jump ⟨⟨""⟩, 1⟩, .push 1, .op (.arith .sub), .op .ret]

theorem spells_source : Spells source spelled :=
  ⟨by decide, .inl ⟨by decide, symbols_ofSymbols _⟩⟩

theorem assemble_source : assemble source = .ok program :=
  assemble_eq_ok_iff.2 ⟨spelled, spells_source, by decide, by decide⟩

/-- A source with marks, calls and branches both ways is accepted. -/
theorem accepted : (∃ cs, Spells source cs) ∧ assemble source = .ok program :=
  have h := decoding_accepts_grammar source
  ⟨h.1.1 (by rw [spells_source.reflects.fault]),
    (h.2.2 spelled spells_source).2 (by decide)⟩

end Countdown

end Whitespace
