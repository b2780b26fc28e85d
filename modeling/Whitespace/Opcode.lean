import Whitespace.Instruction

/-!
# Opcodes

The opcode of an instruction is what is left of it without its operand.  It has
a name for listings and a word of two to four symbols for sources.  No word
begins another, so a sequence of commands can be read in one way only.
-/

namespace Whitespace

/-- What a command does with the label that it carries. -/
inductive LabelUse where
  | mark
  | branch (kind : Branch)
  deriving DecidableEq, Repr, Inhabited

/-- What the first word of a command tells about it. -/
inductive Opcode where
  | push
  | label (use : LabelUse)
  | op (o : Operation)
  deriving DecidableEq, Repr, Inhabited

namespace Opcode

/-- The word that names the opcode. -/
def word : Opcode → List Symbol
  | push => [.space, .space]
  | op .dup => [.space, .lf, .space]
  | op .swap => [.space, .lf, .tab]
  | op .discard => [.space, .lf, .lf]
  | op (.arith .add) => [.tab, .space, .space, .space]
  | op (.arith .sub) => [.tab, .space, .space, .tab]
  | op (.arith .mul) => [.tab, .space, .space, .lf]
  | op (.arith .div) => [.tab, .space, .tab, .space]
  | op (.arith .mod) => [.tab, .space, .tab, .tab]
  | op .store => [.tab, .tab, .space]
  | op .retrieve => [.tab, .tab, .tab]
  | label .mark => [.lf, .space, .space]
  | label (.branch .call) => [.lf, .space, .tab]
  | label (.branch .jump) => [.lf, .space, .lf]
  | label (.branch .jumpIfZero) => [.lf, .tab, .space]
  | label (.branch .jumpIfNegative) => [.lf, .tab, .tab]
  | op .ret => [.lf, .tab, .lf]
  | op .exit => [.lf, .lf, .lf]
  | op .outChar => [.tab, .lf, .space, .space]
  | op .outNum => [.tab, .lf, .space, .tab]
  | op .readChar => [.tab, .lf, .tab, .space]
  | op .readNum => [.tab, .lf, .tab, .tab]

/-- The name of the opcode in listings. -/
def name : Opcode → String
  | push => "Push"
  | label .mark => "Mark"
  | label (.branch kind) => kind.name
  | op o => o.name

def all : List Opcode :=
  [push, op .dup, op .swap, op .discard,
   op (.arith .add), op (.arith .sub), op (.arith .mul), op (.arith .div), op (.arith .mod),
   op .store, op .retrieve,
   label .mark, label (.branch .call), label (.branch .jump), label (.branch .jumpIfZero),
   label (.branch .jumpIfNegative), op .ret, op .exit,
   op .outChar, op .outNum, op .readChar, op .readNum]

/-- The opcode that a word names. -/
def ofWord? (w : List Symbol) : Option Opcode :=
  all.find? fun o => o.word == w

/-- The opcode that has a name. -/
def ofName? (text : String) : Option Opcode :=
  all.find? fun o => o.name == text

/-- Whether some opcode's word begins with these symbols. -/
def begins (w : List Symbol) : Bool :=
  all.any fun o => w.isPrefixOf o.word

theorem mem_all (o : Opcode) : o ∈ all := by
  rcases o with _ | (_ | kind) | o
  · decide
  · decide
  · cases kind <;> decide
  · rcases o with _ | _ | _ | op | _ | _ | _ | _ | _ | _ | _ | _
    case arith => cases op <;> decide
    all_goals decide

/-- Every word is read back as its opcode. -/
@[simp] theorem ofWord?_word (o : Opcode) : ofWord? o.word = some o := by
  have h : ∀ o ∈ all, ofWord? o.word = some o := by decide
  exact h o (mem_all o)

theorem ofWord?_eq_some_iff {w : List Symbol} {o : Opcode} :
    ofWord? w = some o ↔ o.word = w := by
  constructor
  · intro h
    simpa using List.find?_some h
  · rintro rfl
    exact ofWord?_word o

/-- Every name is read back as its opcode. -/
@[simp] theorem ofName?_name (o : Opcode) : ofName? o.name = some o := by
  have h : ∀ o ∈ all, ofName? o.name = some o := by decide
  exact h o (mem_all o)

theorem begins_iff {w : List Symbol} : begins w = true ↔ ∃ o : Opcode, w <+: o.word := by
  simp [begins, mem_all]

end Opcode

end Whitespace
