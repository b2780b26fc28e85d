import Whitespace.Json.Reader
import Whitespace.Proofs.Json.Text

/-!
# What a reader takes from a sequence of tokens

`Reads reader tokens a` says that the reader takes the tokens from the front of any
sequence of lexemes that begins with them, no more and no fewer, and yields the
value.  The readers of arrays and objects inherit it from those of their elements
and fields, whatever the fuel is that their loops are given for the elements.
-/

namespace Whitespace.Json.Reader

/-- The reader takes exactly these tokens and yields the value. -/
def Reads {α : Type} (reader : Reader α) (tokens : List Token) (a : α) : Prop :=
  ∀ rest : List Lexeme, reader (tokens.map .token ++ rest) = .ok (a, rest)

section

variable {α β : Type} {x : Reader α} {f : α → Reader β} {ts us : List Token} {t : Token}
  {a : α} {b : β}

theorem Reads.pure (a : α) : Reads (Pure.pure a) [] a := fun _ => rfl

theorem Reads.bind (hx : Reads x ts a) (hf : Reads (f a) us b) : Reads (x >>= f) (ts ++ us) b := by
  intro rest
  have h : (x >>= f) ((ts ++ us).map .token ++ rest) =
      (x ((ts ++ us).map .token ++ rest)).bind fun r => f r.1 r.2 := rfl
  rw [h, List.map_append, List.append_assoc, hx]
  exact hf rest

theorem Reads.bind_nil (hx : Reads x ts a) (hf : Reads (f a) [] b) : Reads (x >>= f) ts b := by
  have h := hx.bind hf
  rwa [List.append_nil] at h

theorem Reads.map (g : α → β) (hx : Reads x ts a) :
    Reads (x >>= fun a => Pure.pure (g a)) ts (g a) :=
  hx.bind_nil (.pure (g a))

/-- Looking at the first token takes nothing. -/
theorem reads_peek_bind {f : Option Lexeme → Reader β}
    (h : Reads (f (some (.token t))) (t :: ts) b) : Reads (peek >>= f) (t :: ts) b := h

theorem reads_drop_bind {f : Unit → Reader β} (h : Reads (f ()) ts b) :
    Reads (drop >>= f) (t :: ts) b := h

theorem reads_get_bind {f : List Lexeme → Reader β}
    (h : ∀ rest, Reads (f (ts.map .token ++ rest)) ts b) : Reads (get >>= f) ts b :=
  fun rest => h rest rest

theorem reads_drop : Reads drop [t] () := fun _ => rfl

/-! ## Single tokens -/

theorem reads_expect (t : Token) : Reads (expect t) [t] () := by
  unfold expect
  apply reads_peek_bind
  rw [if_pos rfl]
  exact reads_drop

theorem reads_string (text : String) : Reads string [.string text] text := fun _ => rfl

theorem reads_key (text : String) : Reads key [.string text] text := fun _ => rfl

theorem reads_integer {low high n : Int} (hlow : low ≤ n) (hhigh : n ≤ high) :
    Reads (integer low high) [.integer n] n := by
  unfold integer
  apply reads_peek_bind
  dsimp only
  rw [if_pos ⟨hlow, hhigh⟩]
  exact reads_drop.map fun _ => n

/-! ## Arrays -/

theorem reads_moreElements {element : Reader α} {tokens : α → List Token} {as : List α}
    (h : ∀ a ∈ as, Reads element (tokens a) a) (found : Array α) {fuel : Nat}
    (hfuel : as.length < fuel) :
    Reads (moreElements element found fuel)
      (as.flatMap (fun a => .comma :: tokens a) ++ [.closeBracket]) (found ++ as) := by
  induction as generalizing found fuel with
  | nil =>
    obtain ⟨fuel, rfl⟩ := Nat.exists_eq_add_one_of_ne_zero (Nat.ne_zero_of_lt hfuel)
    rw [Array.appendList_nil]
    exact reads_peek_bind (reads_drop_bind (.pure found))
  | cons a as ih =>
    obtain ⟨fuel, rfl⟩ := Nat.exists_eq_add_one_of_ne_zero (Nat.ne_zero_of_lt hfuel)
    have hrest := ih (fun c hc => h c (List.mem_cons_of_mem a hc)) (found.push a)
      (Nat.lt_of_succ_lt_succ hfuel)
    rw [List.flatMap_cons, List.append_assoc, List.cons_append]
    apply reads_peek_bind
    apply reads_drop_bind
    rw [show found ++ a :: as = found.push a ++ as by simp]
    exact (h a (by simp)).bind hrest

/-- Every element takes at least its comma. -/
theorem length_le_flatMap_comma (tokens : α → List Token) (as : List α) :
    as.length ≤ (as.flatMap fun a => .comma :: tokens a).length := by
  induction as with
  | nil => simp
  | cons a as ih =>
    simp only [List.flatMap_cons, List.length_append, List.length_cons]
    omega

/-- **Arrays.**  No element begins with the token that ends the array. -/
theorem reads_array {element : Reader α} {tokens : α → List Token} {as : List α}
    (h : ∀ a ∈ as, Reads element (tokens a) a)
    (hbegin : ∀ a ∈ as, ∃ t ts, tokens a = t :: ts ∧ t ≠ .closeBracket) :
    Reads (array element)
      (.openBracket :: ([Token.comma].intercalate (as.map tokens) ++ [.closeBracket]))
      as.toArray := by
  unfold array
  apply reads_peek_bind
  apply reads_drop_bind
  cases as with
  | nil => exact reads_peek_bind (reads_drop_bind (.pure #[]))
  | cons a as =>
    obtain ⟨t, ts, ht, hfirst⟩ := hbegin a (by simp)
    have ha := h a (by simp)
    rw [List.map_cons, intercalate_comma, List.append_assoc, List.flatMap_map]
    rw [ht] at ha ⊢
    apply reads_peek_bind
    split
    · next heq => simp_all
    · apply ha.bind
      apply reads_get_bind
      intro rest
      have hfuel := length_le_flatMap_comma tokens as
      have harray : (a :: as).toArray = #[a] ++ as := by simp
      rw [harray]
      refine reads_moreElements (fun c hc => h c (List.mem_cons_of_mem a hc)) #[a] ?_
      simp only [List.length_append, List.length_map]
      omega

/-! ## Objects -/

section

variable {σ : Type} {field : σ → String → Reader σ} {found next last : σ} {name : String}

theorem reads_lastField (h : Reads (field found name) ts last) (fuel : Nat) :
    Reads (moreFields field found (fuel + 1)) (.string name :: (ts ++ [.closeBrace])) last :=
  (reads_key name).bind (h.bind (reads_peek_bind (reads_drop_bind (.pure last))))

theorem reads_nextField {fuel : Nat} (h : Reads (field found name) ts next)
    (hmore : Reads (moreFields field next fuel) us last) :
    Reads (moreFields field found (fuel + 1)) (.string name :: (ts ++ .comma :: us)) last :=
  (reads_key name).bind (h.bind (reads_peek_bind (reads_drop_bind hmore)))

/-- **Objects** that are not empty. -/
theorem reads_fields
    (h : ∀ fuel > ts.length, Reads (moreFields field found fuel) (.string name :: ts) last) :
    Reads (fields field found) (.string name :: ts) last := by
  unfold fields
  apply reads_peek_bind
  apply reads_get_bind
  intro rest
  apply h
  simp only [List.map_cons, List.cons_append, List.length_cons, List.length_append,
    List.length_map]
  omega

end

theorem reads_once {value : Reader α} (h : Reads value ts a) :
    Reads (once value none) (.colon :: ts) (some a) :=
  (reads_expect .colon).bind (h.map some)

end

/-- A text whose lexemes are all taken is read. -/
theorem Reads.run {α : Type} {reader : Reader α} {tokens : List Token} {a : α} {text : String}
    (h : Reads reader tokens a) (hlex : lex text = tokens.map .token) :
    reader.run text = .ok a := by
  have hall := h []
  rw [List.append_nil] at hall
  unfold Reader.run
  rw [hlex, hall]
  rfl

end Whitespace.Json.Reader
