import Mathlib.Data.List.Forall2
import Whitespace.Proofs.Assembly.Relabelling
import Whitespace.Proofs.Machine.Execution

/-!
# Label names

A linked program keeps the labels of its targets for the reader only.  Programs that are
the same but for the labels in their marks and branches move alike
(`Program.SameButLabels.move_eq`) and so run alike.  Together with what a renaming does to
assembling this says that the names of labels do not matter (`label_names_immaterial`).
-/

namespace Whitespace

open Source

/-- The same instruction, but for the label that it carries. -/
inductive Instruction.SameButLabels : Instruction Target → Instruction Target → Prop
  | push (n : Int64) : SameButLabels (.push n) (.push n)
  | mark (l m : Label) : SameButLabels (.mark l) (.mark m)
  | branch (kind : Branch) {t u : Target} (h : t.index = u.index) :
      SameButLabels (.branch kind t) (.branch kind u)
  | op (o : Operation) : SameButLabels (.op o) (.op o)

theorem Instruction.SameButLabels.execute_eq {i j : Instruction Target} (h : SameButLabels i j)
    (s : State) : i.execute s = j.execute s := by
  cases h with
  | push _ | mark _ _ | op _ => rfl
  | branch kind h => rw [execute, execute, h]

namespace Program

variable {p q : Program}

/-- The same instructions one by one, but for the labels that they carry. -/
def SameButLabels (p q : Program) : Prop :=
  List.Forall₂ Instruction.SameButLabels p.toList q.toList

theorem sameButLabels_relabel (ρ : Label → Label) (p : Program) :
    p.SameButLabels (p.relabel ρ) := by
  rw [SameButLabels, relabel, toList_ofList, List.forall₂_map_right_iff, List.forall₂_same]
  intro i _
  cases i with
  | push n => exact .push n
  | mark l => exact .mark l (ρ l)
  | branch kind t => exact .branch kind rfl
  | op o => exact .op o

namespace SameButLabels

/-- What is fetched is the same but for its label. -/
theorem get? (h : p.SameButLabels q) (index : Nat) :
    Option.Rel Instruction.SameButLabels (p.get? index) (q.get? index) := by
  have hlength : p.toList.length = q.toList.length := h.length_eq
  rw [get?_eq_getElem?, get?_eq_getElem?]
  by_cases hindex : index < p.toList.length
  · rw [List.getElem?_eq_getElem hindex, List.getElem?_eq_getElem (hlength ▸ hindex)]
    exact .some (h.get hindex (hlength ▸ hindex))
  · rw [List.getElem?_eq_none (Nat.le_of_not_lt hindex),
      List.getElem?_eq_none (hlength ▸ Nat.le_of_not_lt hindex)]
    exact .none

theorem move_eq (h : p.SameButLabels q) : p.move = q.move := by
  funext s
  have hget := h.get? s.pc
  rw [move, move]
  generalize p.get? s.pc = i, q.get? s.pc = j at hget
  cases hget with
  | none => rfl
  | some hij => exact congrArg Step.move (hij.execute_eq _)

/-- **Programs that are the same but for labels run alike**, on any machine. -/
theorem outcome_run (h : p.SameButLabels q) (m m' : Machine) (fuel : Nat) (console : Console)
    (log log' : Log) :
    (m.run p fuel console log).map Report.outcome =
      (m'.run q fuel console log').map Report.outcome := by
  rw [Machine.outcome_run, Machine.outcome_run, h.move_eq]

end SameButLabels

end Program

/-- **The names of labels do not matter.**  If the labels in a sequence of commands are
renamed injectively, then it is assembled iff it was, into the same program with renamed
labels, and refused for the same label under its new name.  Programs that are the same but
for labels run alike in every respect. -/
theorem label_names_immaterial {r : List Bit → List Bit} (hr : Function.Injective r) :
    (∀ bits, (Label.ofBits bits).rename r = .ofBits (r bits)) ∧
    (∀ (cs : List Spelling) (s s' : List UInt8), symbols s = cs.flatMap Spelling.symbols →
      symbols s' = (cs.map (Spelling.rename r)).flatMap Spelling.symbols →
      ((∃ p', assemble s' = .ok p') ↔ ∃ p, assemble s = .ok p) ∧
      (∀ p p', assemble s = .ok p → assemble s' = .ok p' → p' = p.relabel (Label.rename r)) ∧
      (∀ l, assemble s' = .error (.duplicateLabel (l.rename r)) ↔
        assemble s = .error (.duplicateLabel l)) ∧
      ∀ l, assemble s' = .error (.labelNotFound (l.rename r)) ↔
        assemble s = .error (.labelNotFound l)) ∧
    ∀ p q : Program, p.SameButLabels q → ∀ (m m' : Machine) (fuel : Nat) (console : Console)
      (log log' : Log), (m.run p fuel console log).map Report.outcome =
        (m'.run q fuel console log').map Report.outcome := by
  have hρ := Label.rename_injective hr
  refine ⟨Label.rename_ofBits r, ?_, fun p q h => h.outcome_run⟩
  intro cs s s' h h'
  have hrenamed := assemble_rename hr h h'
  generalize assemble s = a, assemble s' = a' at hrenamed
  cases hrenamed with
  | ok p =>
    refine ⟨⟨fun _ => ⟨p, rfl⟩, fun _ => ⟨_, rfl⟩⟩, ?_, by simp, by simp⟩
    rintro _ _ ⟨⟩ ⟨⟩
    rfl
  | duplicateLabel l => simp [hρ.eq_iff]
  | labelNotFound l => simp [hρ.eq_iff]

namespace Countdown

/-- The countdown with a Tab before each label, so that the loop has the name of what was
the subroutine. -/
def renamed : List UInt8 :=
  ofSymbols ((spelled.map (Spelling.rename (.one :: ·))).flatMap Spelling.symbols)

def renamedProgram : Program := Program.ofList
  [.push 2, .branch .call ⟨⟨"TT"⟩, 5⟩, .op .dup, .branch .jumpIfZero ⟨⟨"TS"⟩, 8⟩,
   .branch .jump ⟨⟨"T"⟩, 1⟩, .push 1, .op (.arith .sub), .op .ret]

theorem runs_alike_renamed : assemble source = .ok program ∧ assemble renamed = .ok renamedProgram ∧
    ∃ r r', Machine.run {} program 16 {} ⟨.warn, #[]⟩ = some r ∧
      Machine.run {} renamedProgram 16 {} ⟨.warn, #[]⟩ = some r' ∧ r'.outcome = r.outcome := by
  have hrename : program.relabel (Label.rename (.one :: ·)) = renamedProgram := rfl
  obtain ⟨-, hassemble, hrun⟩ := label_names_immaterial (List.cons_injective (a := Bit.one))
  obtain ⟨hok, hprogram, -⟩ := hassemble spelled source renamed (symbols_ofSymbols _)
    (symbols_ofSymbols _)
  obtain ⟨p', hp'⟩ := hok.2 ⟨program, assemble_source⟩
  obtain rfl : p' = renamedProgram := (hprogram _ _ assemble_source hp').trans hrename
  obtain ⟨r, hr⟩ : ∃ r, Machine.run {} program 16 {} ⟨.warn, #[]⟩ = some r := ⟨_, rfl⟩
  have hsame := hrun program _ (hrename ▸ Program.sameButLabels_relabel _ _) {} {} 16 {}
    ⟨.warn, #[]⟩ ⟨.warn, #[]⟩
  rw [hr, Option.map_some] at hsame
  obtain ⟨r', hr', houtcome⟩ := Option.map_eq_some_iff.1 hsame.symm
  exact ⟨assemble_source, hp', r, r', hr, hr', houtcome⟩

end Countdown

end Whitespace
