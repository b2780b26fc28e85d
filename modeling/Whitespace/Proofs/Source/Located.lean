import Whitespace.Symbol

/-!
# The symbols of a source

What is left of a source without its comments: its symbols, alone (`symbols`) or
each with the offset of its byte (`located`).  A comment only moves the offsets
of what follows it.
-/

namespace Whitespace.Source

/-- The symbols of a source. -/
def symbols (source : List UInt8) : List Symbol :=
  source.filterMap Symbol.ofByte?

/-- The symbols of a source that starts at an offset, each with its own offset. -/
def located (offset : Nat) : List UInt8 → List (Symbol × Nat)
  | [] => []
  | b :: rest =>
    match Symbol.ofByte? b with
    | some s => (s, offset) :: located (offset + 1) rest
    | none => located (offset + 1) rest

/-- The source that consists of these symbols without comments. -/
def ofSymbols (w : List Symbol) : List UInt8 := w.map Symbol.toByte

@[simp] theorem symbols_ofSymbols (w : List Symbol) : symbols (ofSymbols w) = w := by
  have hcomp : Symbol.ofByte? ∘ Symbol.toByte = some := funext Symbol.ofByte?_toByte
  rw [symbols, ofSymbols, List.filterMap_map, hcomp, List.filterMap_some]

@[simp] theorem symbols_append (a b : List UInt8) :
    symbols (a ++ b) = symbols a ++ symbols b :=
  List.filterMap_append

/-- The bytes behind a byte start one place further. -/
theorem add_length_cons (offset : Nat) (b : UInt8) (rest : List UInt8) :
    offset + (b :: rest).length = offset + 1 + rest.length := by
  rw [List.length_cons]
  omega

theorem located_append (offset : Nat) (a b : List UInt8) :
    located offset (a ++ b) = located offset a ++ located (offset + a.length) b := by
  induction a generalizing offset with
  | nil => rfl
  | cons c a ih =>
    rw [List.cons_append, add_length_cons]
    cases hc : Symbol.ofByte? c with
    | none => simpa only [located, hc] using ih (offset + 1)
    | some s => simp only [located, hc, List.cons_append, ih (offset + 1)]

@[simp] theorem map_fst_located (offset : Nat) (source : List UInt8) :
    (located offset source).map Prod.fst = symbols source := by
  induction source generalizing offset with
  | nil => rfl
  | cons b rest ih =>
    cases hb : Symbol.ofByte? b with
    | none => simpa [located, symbols, hb] using ih (offset + 1)
    | some s => simpa [located, symbols, hb] using ih (offset + 1)

/-- The `j`-th symbol of a source is `x`, and its byte has the offset `p`. -/
def SymbolAt (source : List UInt8) (j : Nat) (x : Symbol) (p : Nat) : Prop :=
  source[p]? = some x.toByte ∧ (symbols (source.take p)).length = j

theorem SymbolAt.cons {source : List UInt8} {j p : Nat} {x : Symbol} (h : SymbolAt source j x p)
    (b : UInt8) : SymbolAt (b :: source) ((symbols [b]).length + j) x (p + 1) := by
  obtain ⟨hbyte, hj⟩ := h
  refine ⟨by rw [List.getElem?_cons_succ, hbyte], ?_⟩
  rw [← hj, ← List.length_append, symbols, symbols, symbols, ← List.filterMap_append]
  rfl

theorem exists_symbolAt_of_located {offset j p : Nat} {x : Symbol} {source : List UInt8}
    (h : (located offset source)[j]? = some (x, p)) :
    ∃ k, p = offset + k ∧ SymbolAt source j x k := by
  induction source generalizing offset j with
  | nil => cases h
  | cons b rest ih =>
    rw [located] at h
    cases hb : Symbol.ofByte? b with
    | none =>
      -- a comment moves what follows it by one byte and is no symbol itself
      rw [hb] at h
      obtain ⟨k, rfl, hk⟩ := ih h
      refine ⟨k + 1, by omega, ?_⟩
      have hcons := hk.cons b
      simpa [symbols, hb] using hcons
    | some s =>
      rw [hb] at h
      cases j with
      | zero =>
        cases h
        exact ⟨0, rfl, by simp [Symbol.toByte_of_ofByte? hb], rfl⟩
      | succ j =>
        obtain ⟨k, rfl, hk⟩ := ih (List.getElem?_cons_succ ▸ h)
        refine ⟨k + 1, by omega, ?_⟩
        have hcons := hk.cons b
        simpa [symbols, hb, Nat.add_comm] using hcons

theorem symbolAt_of_located {j p : Nat} {x : Symbol} {source : List UInt8}
    (h : (located 0 source)[j]? = some (x, p)) : SymbolAt source j x p := by
  obtain ⟨k, rfl, hk⟩ := exists_symbolAt_of_located h
  rwa [Nat.zero_add]

/-- A symbol has an offset iff its byte stands there, and what stands before it are the
symbols of the bytes before that offset. -/
theorem exists_located_eq_iff {source : List UInt8} {w : List Symbol} {x : Symbol} {p : Nat} :
    (∃ ys rest, located 0 source = ys ++ (x, p) :: rest ∧ ys.map Prod.fst = w) ↔
      source[p]? = some x.toByte ∧ symbols (source.take p) = w := by
  constructor
  · rintro ⟨ys, rest, h, rfl⟩
    have hget : (located 0 source)[ys.length]? = some (x, p) := by
      rw [h, List.getElem?_append_right (Nat.le_refl _), Nat.sub_self]
      rfl
    obtain ⟨hbyte, hlen⟩ := symbolAt_of_located hget
    refine ⟨hbyte, ?_⟩
    have hsplit : symbols (source.take p) ++ symbols (source.drop p) =
        ys.map Prod.fst ++ x :: rest.map Prod.fst := by
      rw [← symbols_append, List.take_append_drop, ← map_fst_located 0, h, List.map_append,
        List.map_cons]
    exact (List.append_inj hsplit (by rw [hlen, List.length_map])).1
  · rintro ⟨hbyte, rfl⟩
    obtain ⟨hp, hget⟩ := List.getElem?_eq_some_iff.1 hbyte
    have hsplit : source = source.take p ++ x.toByte :: source.drop (p + 1) := by
      rw [← hget, ← List.drop_eq_getElem_cons hp, List.take_append_drop]
    refine ⟨located 0 (source.take p), located (p + 1) (source.drop (p + 1)), ?_,
      map_fst_located 0 _⟩
    have hlen : 0 + (source.take p).length = p := by
      rw [List.length_take]
      omega
    conv => lhs; rw [hsplit]
    rw [located_append, hlen, located, Symbol.ofByte?_toByte]

theorem getElem?_located_eq_some_iff {source : List UInt8} {j p : Nat} {x : Symbol} :
    (located 0 source)[j]? = some (x, p) ↔ SymbolAt source j x p := by
  constructor
  · exact symbolAt_of_located
  · rintro ⟨hbyte, hj⟩
    obtain ⟨ys, rest, hlocated, hys⟩ := exists_located_eq_iff.2 ⟨hbyte, rfl⟩
    have hlength : ys.length = j := by rw [← hj, ← hys, List.length_map]
    rw [hlocated, ← hlength, List.getElem?_append_right (Nat.le_refl _), Nat.sub_self]
    rfl

/-- A later symbol has a larger offset. -/
theorem SymbolAt.lt {source : List UInt8} {j k p q : Nat} {x y : Symbol}
    (h : SymbolAt source j x p) (h' : SymbolAt source k y q) (hjk : j < k) : p < q := by
  refine Nat.lt_of_not_le fun hle => ?_
  have hprefix : symbols (source.take q) <+: symbols (source.take p) :=
    (List.take_prefix_take_left hle).filterMap _
  have hlength := hprefix.length_le
  rw [h.2, h'.2] at hlength
  omega

end Whitespace.Source
