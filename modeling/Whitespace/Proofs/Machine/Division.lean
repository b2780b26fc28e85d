import Mathlib.Data.Int.ModEq
import Whitespace.Proofs.Machine.StraightLine
import Whitespace.Proofs.Source.Numeral

/-!
# Division

A quotient and a remainder of 64-bit integers give back the dividend modulo 2^64, for
every dividend and every divisor that is not zero (`truncatedDivision`).  One quotient does
not fit into 64 bits; it wraps, and its remainder is zero.  Code that puts two values onto
the data stack can be put together to code for what an operation makes of them
(`Instruction.Loads.arith`), and so the law of division holds for what a program computes
(`division_law`).
-/

namespace Whitespace

/-- What a quotient `q` and a remainder `m` of `l` by `r` have to be. -/
structure TruncatedDivision (l r q m : Int64) : Prop where
  congruent : l.toInt ≡ q.toInt * r.toInt + m.toInt [ZMOD 2 ^ 64]
  abs_lt : |m.toInt| < |r.toInt|
  sign : m = 0 ∨ m.toInt.sign = l.toInt.sign
  /-- The quotient is truncated toward zero if it fits into 64 bits. -/
  quotient : ¬ (l = Int64.minValue ∧ r = -1) → q.toInt = l.toInt.tdiv r.toInt
  overflow : l = Int64.minValue ∧ r = -1 → q = Int64.minValue ∧ m = 0

section

variable {l r q m : Int64}

theorem toInt_div_modEq (l r : Int64) : (l / r).toInt ≡ l.toInt.tdiv r.toInt [ZMOD 2 ^ 64] := by
  rw [Int64.toInt_div]
  exact Int.bmod_emod

theorem abs_toInt_mod_lt (l : Int64) (hr : r ≠ 0) : |(l % r).toInt| < |r.toInt| := by
  have hpos : 0 < r.toInt.natAbs := by
    rw [Int.natAbs_pos, ← Int64.toInt_zero]
    exact fun h => hr (Int64.toInt_inj.1 h)
  have hlt : (l.toInt.tmod r.toInt).natAbs < r.toInt.natAbs := by
    rw [Int.natAbs_tmod]
    exact Nat.mod_lt _ hpos
  rw [Int64.toInt_mod, Int.abs_eq_natAbs, Int.abs_eq_natAbs]
  exact Int.ofNat_lt.2 hlt

/-- A remainder has the sign of the dividend. -/
theorem sign_toInt_mod (l r : Int64) : l % r = 0 ∨ (l % r).toInt.sign = l.toInt.sign := by
  by_cases hdvd : r.toInt ∣ l.toInt
  · left
    rw [← Int64.toInt_inj, Int64.toInt_mod, Int.tmod_eq_zero_of_dvd hdvd]
    rfl
  · right
    rw [Int64.toInt_mod, Int.sign_tmod, if_neg hdvd]

/-- **The machine's quotient and remainder** are those of a truncated division. -/
theorem truncatedDivision (l : Int64) (hr : r ≠ 0) : TruncatedDivision l r (l / r) (l % r) where
  congruent := by
    have hsum := ((toInt_div_modEq l r).mul_right r.toInt).add_right (l % r).toInt
    rw [Int64.toInt_mod, Int.tdiv_mul_add_tmod, ← Int64.toInt_mod] at hsum
    exact hsum.symm
  abs_lt := abs_toInt_mod_lt l hr
  sign := sign_toInt_mod l r
  quotient := by
    intro hfits
    by_cases hl : l = Int64.minValue
    · exact Int64.toInt_div_of_ne_right l r fun hr => hfits ⟨hl, hr⟩
    · exact Int64.toInt_div_of_ne_left l r hl
  overflow := by
    rintro ⟨rfl, rfl⟩
    exact ⟨Int64.minValue_div_neg_one, by decide⟩

/-- **The law of division** on 64-bit integers. -/
theorem TruncatedDivision.mul_add (h : TruncatedDivision l r q m) : q * r + m = l := by
  have hsum := ofInt_eq_of_modEq h.congruent
  rw [Int64.ofInt_add, Int64.ofInt_mul] at hsum
  simpa only [Int64.ofInt_toInt] using hsum.symm

end

namespace Instruction

variable {s : State} {heap : Heap} {stack : List Int64} {o : Arithmetic} {l r v w : Int64}
  {code code' : List (Instruction Target)}

/-- An operation on two values that are there fails for want of a result only. -/
theorem execute_arith (hs : s.stack = r :: l :: stack) :
    (Instruction.op (.arith o)).execute s =
      match o.eval? l r with
      | some v => .next { s with stack := v :: stack }
      | none => .fault .divisionByZero { s with stack } := by
  rw [execute, Operation.execute, State.pop_of_cons hs, State.pop_of_cons rfl]
  rfl

/-- The operation divides, and has no result iff the divisor is zero. -/
theorem execute_arith_eq_fault_iff (ho : o = .div ∨ o = .mod) (hs : s.stack = r :: l :: stack) :
    (∃ t, (Instruction.op (.arith o)).execute s = .fault .divisionByZero t) ↔ r = 0 := by
  rw [execute_arith hs]
  rcases ho with rfl | rfl <;> by_cases hr : r = 0 <;> simp [Arithmetic.eval?, hr]

/-! ## Code for a value -/

/-- The code puts the value onto the data stack, whatever is on it, and leaves the heap and
the streams alone. -/
def Loads (heap : Heap) (code : List (Instruction Target)) (v : Int64) : Prop :=
  ∀ s : State, s.heap = heap →
    executeAll code s = .next { s with pc := s.pc + code.length, stack := v :: s.stack }

/-- Code for an operation on the values of two others. -/
def arithCode (o : Arithmetic) (code code' : List (Instruction Target)) :
    List (Instruction Target) :=
  code ++ code' ++ [.op (.arith o)]

/-- Code that puts a quotient and a remainder together again. -/
def recombineCode (dividend divisor : List (Instruction Target)) : List (Instruction Target) :=
  arithCode .add (arithCode .mul (arithCode .div dividend divisor) divisor)
    (arithCode .mod dividend divisor)

theorem loads_push (heap : Heap) (v : Int64) : Loads heap [.push v] v := fun _ _ => rfl

theorem loads_retrieve (heap : Heap) (a : Int64) :
    Loads heap [.push a, .op .retrieve] (heap.load a) := by
  rintro s rfl
  rfl

theorem Loads.arith (hcode : Loads heap code l) (hcode' : Loads heap code' r)
    (hv : o.eval? l r = some v) : Loads heap (arithCode o code code') v := by
  intro s hs
  have hright := hcode' { s with pc := s.pc + code.length, stack := l :: s.stack } hs
  have hboth : executeAll (code ++ code') s =
      .next { s with pc := s.pc + (code ++ code').length, stack := r :: l :: s.stack } := by
    rw [executeAll_append (hcode s hs), hright, List.length_append, Nat.add_assoc]
  have hlast := execute_arith (o := o) (l := l) (r := r)
    (s := { s with pc := s.pc + (code ++ code').length + 1, stack := r :: l :: s.stack }) rfl
  rw [hv] at hlast
  rw [arithCode, executeAll_append hboth, executeAll_cons_of_next hlast]
  simp only [executeAll, List.length_append, List.length_singleton, Nat.add_assoc]

/-- The code for a quotient and a remainder of two values, put together again, is code for
the dividend. -/
theorem Loads.recombine (hcode : Loads heap code l) (hcode' : Loads heap code' r) (hr : r ≠ 0) :
    Loads heap (recombineCode code code') l := by
  have hdiv : Arithmetic.div.eval? l r = some (l / r) := if_neg hr
  have hmod : Arithmetic.mod.eval? l r = some (l % r) := if_neg hr
  have hsum : Arithmetic.add.eval? (l / r * r) (l % r) = some l :=
    congrArg some (truncatedDivision l hr).mul_add
  exact (((hcode.arith hcode' hdiv).arith hcode' rfl).arith (hcode.arith hcode' hmod)) hsum

/-- Code that takes two values off the data stack and stores them to two addresses, the
topmost one first. -/
def saveCode (a b : Int64) : List (Instruction Target) :=
  [.push a, .op .swap, .op .store, .push b, .op .swap, .op .store]

theorem executeAll_saveCode (a b : Int64) (hs : s.stack = r :: l :: stack) :
    executeAll (saveCode a b) s =
      .next { s with pc := s.pc + 6, stack, heap := (s.heap.store a r).store b l } := by
  obtain ⟨⟨_, heap, calls, pc⟩, console⟩ := s
  cases hs
  rfl

/-- Code that does the same with two values on the data stack, by way of two addresses of
the heap. -/
def recombineStack (a b : Int64) : List (Instruction Target) :=
  saveCode a b ++ recombineCode [.push b, .op .retrieve] [.push a, .op .retrieve]

theorem executeAll_recombineStack {a b : Int64} (hab : a ≠ b) (hr : r ≠ 0)
    (hs : s.stack = r :: l :: stack) :
    executeAll (recombineStack a b) s =
      .next { s with
        pc := s.pc + (recombineStack a b).length
        stack := l :: stack
        heap := (s.heap.store a r).store b l } := by
  have hdividend := loads_retrieve ((s.heap.store a r).store b l) b
  have hdivisor := loads_retrieve ((s.heap.store a r).store b l) a
  rw [Heap.load, Heap.find?_store, if_pos rfl] at hdividend
  rw [Heap.load, Heap.find?_store, if_neg hab.symm, Heap.find?_store, if_pos rfl] at hdivisor
  have hrecombine := hdividend.recombine hdivisor hr
    { s with pc := s.pc + 6, stack, heap := (s.heap.store a r).store b l } rfl
  rw [recombineStack, executeAll_append (executeAll_saveCode a b hs), hrecombine,
    List.length_append, ← Nat.add_assoc]
  rfl

end Instruction

open Instruction in
/-- **Division and remainder agree.**  With `l` and `r` on the data stack, each of the two
fails iff `r` is zero, and otherwise they leave the quotient and the remainder of a truncated
division in place of both.  So the product of the quotient and `r` and the remainder sum up
to `l`, whether the code has the two values as literals or finds them on the data stack. -/
theorem division_law (l r : Int64) :
    (∀ (s : State) (stack : List Int64), s.stack = r :: l :: stack →
      ((∃ t, (Instruction.op (.arith .div)).execute s = .fault .divisionByZero t) ↔ r = 0) ∧
      ((∃ t, (Instruction.op (.arith .mod)).execute s = .fault .divisionByZero t) ↔ r = 0) ∧
      (r ≠ 0 → ∃ q m, TruncatedDivision l r q m ∧
        (Instruction.op (.arith .div)).execute s = .next { s with stack := q :: stack } ∧
        (Instruction.op (.arith .mod)).execute s = .next { s with stack := m :: stack })) ∧
    (r ≠ 0 →
      (∀ s : State, executeAll (recombineCode [.push l] [.push r]) s =
        .next { s with pc := s.pc + 9, stack := l :: s.stack }) ∧
      (∀ (m : Machine) (console : Console) (log : Log), ∃ fuel report,
        m.run (.ofList (recombineCode [.push l] [.push r])) fuel console log = some report ∧
          report.state.stack = [l] ∧
          (console.output.canFlush = true → report.result = .ok ())) ∧
      ∀ (a b : Int64) (s : State) (stack : List Int64), a ≠ b → s.stack = r :: l :: stack →
        executeAll (recombineStack a b) s =
          .next { s with
            pc := s.pc + (recombineStack a b).length
            stack := l :: stack
            heap := (s.heap.store a r).store b l }) := by
  refine ⟨?_, ?_⟩
  · intro s stack hs
    refine ⟨execute_arith_eq_fault_iff (.inl rfl) hs, execute_arith_eq_fault_iff (.inr rfl) hs, ?_⟩
    intro hr
    refine ⟨l / r, l % r, truncatedDivision l hr, ?_, ?_⟩
    · rw [execute_arith hs, Arithmetic.eval?, if_neg hr]
    · rw [execute_arith hs, Arithmetic.eval?, if_neg hr]
  · intro hr
    have hliterals : ∀ heap, Loads heap (recombineCode [.push l] [.push r]) l :=
      fun heap => (loads_push heap l).recombine (loads_push heap r) hr
    refine ⟨fun s => hliterals s.heap s rfl, ?_, ?_⟩
    · intro m console log
      have hstraight : ∀ i ∈ recombineCode [.push l] [.push r], i.isStraight = true := by
        simp [recombineCode, arithCode, isStraight]
      have hexec := hliterals .empty (State.initial console) rfl
      obtain ⟨fuel, report, hrun, hresult, pc, hstate⟩ :=
        Machine.exists_run_of_executeAll (.inl (Program.toList_ofList _)) hstraight hexec m log
      exact ⟨fuel, report, hrun, by rw [hstate]; rfl, hresult⟩
    · intro a b s stack hab hs
      exact executeAll_recombineStack hab hr hs

/-- The quotient that does not fit wraps, and goes together with its remainder all the same. -/
example : Int64.minValue / -1 = Int64.minValue ∧ Int64.minValue % -1 = 0 ∧
    Int64.minValue * -1 + 0 = Int64.minValue := by
  decide

end Whitespace
