import Mathlib.Data.List.Induction
import Mathlib.Data.List.ReduceOption
import Whitespace.Proofs.Source.Located
import Whitespace.Source.Cursor

/-!
# Walking over a source

Whatever a cursor is asked comes down to calls for its next symbol: a drain calls
until there is none (`calls_drain`), and the other requests do not call at all.  The
number of calls is all there is to know about a cursor on a source (`Behind`).  So
every reply can be told from the source and from what was returned earlier: the
`k`-th call returns the `k`-th symbol, and the position is the offset of the latest
symbol that was returned (`walks_symbols`).
-/

namespace Whitespace

open Source

namespace Source

/-! ## The symbols in front of a place and behind it -/

/-- The symbols of a source from the `k`-th one on, each with its offset. -/
structure Remaining (source : List UInt8) (k : Nat) (xs : List (Symbol × Nat)) : Prop where
  get : ∀ i x p, xs[i]? = some (x, p) ↔ SymbolAt source (k + i) x p
  increasing : xs.Pairwise fun a b => a.2 < b.2

theorem remaining_drop_located (source : List UInt8) (k : Nat) :
    Remaining source k ((located 0 source).drop k) := by
  have hget : ∀ i x p, ((located 0 source).drop k)[i]? = some (x, p) ↔
      SymbolAt source (k + i) x p := by
    intro i x p
    rw [List.getElem?_drop, getElem?_located_eq_some_iff]
  refine ⟨hget, List.pairwise_iff_getElem.2 ?_⟩
  intro i j hi hj hij
  have hi := (hget i _ _).1 (List.getElem?_eq_getElem hi)
  have hj := (hget j _ _).1 (List.getElem?_eq_getElem hj)
  exact hi.lt hj (Nat.add_lt_add_left hij k)

/-- The offset of the latest of the symbols that a source begins with, if there is one. -/
def LatestAt (source : List UInt8) (beginning : List Symbol) : Option Nat → Prop
  | none => beginning = []
  | some p => ∃ front x, beginning = front ++ [x] ∧ SymbolAt source front.length x p

theorem latestAt_take_located (source : List UInt8) (k : Nat) :
    LatestAt source ((symbols source).take k)
      (((located 0 source).take k).getLast?.map Prod.snd) := by
  rw [← map_fst_located 0, ← List.map_take]
  have hprefix := List.take_prefix k (located 0 source)
  generalize (located 0 source).take k = front at hprefix
  cases front using List.reverseRecOn with
  | nil => rfl
  | append_singleton front y =>
    have hget : (located 0 source)[front.length]? = some y := by
      obtain ⟨rest, hrest⟩ := hprefix
      simp [← hrest]
    rw [List.map_append, List.getLast?_concat]
    exact ⟨front.map Prod.fst, y.1, rfl, by simpa using symbolAt_of_located hget⟩

end Source

namespace Cursor

/-! ## Calls for the next symbol -/

/-- The symbols that are left, each with its offset. -/
def left (c : Cursor) : List (Symbol × Nat) := located c.offset c.rest

/-- A call returns the first symbol that is left, or runs to the end of the source. -/
theorem next_cases (c : Cursor) :
    (c.left = [] ∧ c.next = (none, ⟨[], c.sourceLength, c.position⟩)) ∨
      ∃ x p d, c.next = (some x, d) ∧ c.left = (x, p) :: d.left ∧ d.position = some p := by
  have go : ∀ rest offset,
      (located offset rest = [] ∧
          next.go c rest offset = (none, ⟨[], offset + rest.length, c.position⟩)) ∨
        ∃ x p d, next.go c rest offset = (some x, d) ∧
          located offset rest = (x, p) :: d.left ∧ d.position = some p := by
    intro rest
    induction rest with
    | nil => exact fun offset => .inl ⟨rfl, rfl⟩
    | cons b rest ih =>
      intro offset
      cases hb : Symbol.ofByte? b with
      | none =>
        simpa only [next.go, located, hb, add_length_cons] using ih (offset + 1)
      | some x =>
        refine .inr ⟨x, offset, ⟨rest, offset + 1, some offset⟩, ?_, ?_, rfl⟩
        · simp only [next.go, hb]
        · simp only [located, hb, left]
  exact go c.rest c.offset

/-- A drain finds all that is left and goes to the end of the source. -/
theorem drain_eq (c : Cursor) :
    c.drain = (c.left, ⟨[], c.sourceLength, (c.left.getLast?.map Prod.snd).or c.position⟩) := by
  have go : ∀ rest offset found position, drain.go found position rest offset =
      (found.toList ++ located offset rest,
        ⟨[], offset + rest.length, ((located offset rest).getLast?.map Prod.snd).or position⟩) := by
    intro rest
    induction rest with
    | nil => intro offset found position; simp [drain.go, located]
    | cons b rest ih =>
      intro offset found position
      rw [add_length_cons]
      cases hb : Symbol.ofByte? b with
      | none => simp only [drain.go, located, hb, ih]
      | some x =>
        simp only [drain.go, located, hb, ih, Array.toList_push, List.append_assoc,
          List.singleton_append, List.getLast?_cons]
        cases (located (offset + 1) rest).getLast? <;> rfl
  exact go c.rest c.offset #[] c.position

/-- Calls for the next symbol lead from one cursor to another, with what they return. -/
inductive Calls : Cursor → List (Option Symbol) → Cursor → Prop
  | nil (c : Cursor) : Calls c [] c
  | cons {c d e : Cursor} {x : Option Symbol} {xs : List (Option Symbol)}
      (hnext : c.next = (x, d)) (h : Calls d xs e) : Calls c (x :: xs) e

theorem Calls.append {c d e : Cursor} {xs ys : List (Option Symbol)} (h : Calls c xs d)
    (h' : Calls d ys e) : Calls c (xs ++ ys) e := by
  induction h with
  | nil c => exact h'
  | cons hnext _ ih => exact .cons hnext (ih h')

/-- A drain takes the next symbol with its position, and goes on as a drain from there. -/
theorem drain_of_next {c d : Cursor} {x : Symbol} {p : Nat} (hnext : c.next = (some x, d))
    (hleft : c.left = (x, p) :: d.left) (hp : d.position = some p) :
    c.drain = ((x, p) :: d.drain.1, d.drain.2) := by
  have hlength : d.sourceLength = c.sourceLength := by rw [← sourceLength_next c, hnext]
  rw [drain_eq, drain_eq, hleft, hlength, hp, List.getLast?_cons]
  cases d.left.getLast? <;> rfl

/-- **A drain is nothing but calls,** the last of which returns no symbol. -/
theorem calls_drain (c : Cursor) :
    Calls c (c.drain.1.map (fun x => some x.1) ++ [none]) c.drain.2 := by
  induction hc : c.left generalizing c with
  | nil =>
    rcases next_cases c with ⟨-, hnext⟩ | ⟨x, p, d, -, hleft, -⟩
    · rw [drain_eq, hc]
      exact .cons hnext (.nil _)
    · rw [hc] at hleft
      cases hleft
  | cons y ys ih =>
    rcases next_cases c with ⟨hleft, -⟩ | ⟨x, p, d, hnext, hleft, hp⟩
    · rw [hc] at hleft
      cases hleft
    · rw [hc] at hleft
      cases hleft
      rw [drain_of_next hnext hc hp]
      exact .cons hnext (ih d rfl)

/-- A cursor on a source from which the next symbol was called for `k` times. -/
structure Behind (source : List UInt8) (k : Nat) (c : Cursor) : Prop where
  left : c.left = (located 0 source).drop k
  position : c.position = ((located 0 source).take k).getLast?.map Prod.snd
  sourceLength : c.sourceLength = source.length

namespace Behind

variable {source : List UInt8} {k : Nat} {c d : Cursor}

theorem ofSource (source : List UInt8) : Behind source 0 (ofSource source) :=
  ⟨rfl, rfl, sourceLength_ofSource source⟩

/-- **The next call** returns the next symbol of the source, if there is one. -/
theorem next (h : Behind source k c) :
    c.next.1 = (symbols source)[k]? ∧ Behind source (k + 1) c.next.2 := by
  have hlength : c.next.2.sourceLength = source.length :=
    (sourceLength_next c).trans h.sourceLength
  have hget : (located 0 source)[k]? = c.left.head? := by rw [h.left, List.head?_drop]
  have htail : c.left.tail = (located 0 source).drop (k + 1) := by rw [h.left, List.tail_drop]
  rw [← map_fst_located 0, List.getElem?_map, hget]
  rcases next_cases c with ⟨hleft, hnext⟩ | ⟨x, p, d, hnext, hleft, hp⟩
  · rw [hleft] at hget htail
    rw [hnext] at hlength ⊢
    refine ⟨by rw [hleft]; rfl, htail, ?_, hlength⟩
    rw [List.take_add_one, hget, h.position]
    simp
  · rw [hleft] at hget htail
    rw [hnext] at hlength ⊢
    refine ⟨by rw [hleft]; rfl, htail, ?_, hlength⟩
    rw [List.take_add_one, hget, hp]
    simp

/-- **Any calls** return one symbol after the other, and none from the end on. -/
theorem calls {xs : List (Option Symbol)} (h : Behind source k c) (hcalls : Calls c xs d) :
    Behind source (k + xs.length) d ∧
      ∀ i x, xs[i]? = some x → x = (symbols source)[k + i]? := by
  induction hcalls generalizing k with
  | nil c => exact ⟨h, fun i x hx => by cases hx⟩
  | @cons c d e x xs hnext _ ih =>
    obtain ⟨hx, hd⟩ := h.next
    rw [hnext] at hx hd
    obtain ⟨he, hxs⟩ := ih hd
    have hadd : ∀ i, k + 1 + i = k + (i + 1) := by omega
    rw [hadd] at he
    refine ⟨he, ?_⟩
    intro i y hy
    cases i with
    | zero =>
      cases hy
      exact hx
    | succ i =>
      rw [← hadd]
      exact hxs i y (List.getElem?_cons_succ ▸ hy)

end Behind

/-- Entries of a list, read one after the other until there are none, are its beginning. -/
theorem reduceOption_eq_take {α : Type} {l : List α} {xs : List (Option α)}
    (h : ∀ (i : Nat) x, xs[i]? = some x → x = l[i]?) : xs.reduceOption = l.take xs.length := by
  induction xs using List.reverseRecOn with
  | nil => rfl
  | append_singleton xs x ih =>
    have hx : x = l[xs.length]? := h _ _ List.getElem?_concat_length
    have hxs : xs.reduceOption = l.take xs.length := by
      refine ih fun i y hy => h i y ?_
      obtain ⟨hi, -⟩ := List.getElem?_eq_some_iff.1 hy
      rw [List.getElem?_append_left hi, hy]
    rw [List.reduceOption_append, List.reduceOption_singleton, hxs, List.length_append,
      List.length_singleton, List.take_add_one, hx]

/-! ## Requests -/

/-- What a cursor is asked for. -/
inductive Request where
  | next
  | position
  | sourceLength
  /-- To call for the next symbol until there is none. -/
  | drain
  /-- The same with a copy of the cursor. -/
  | drainCopy
  deriving DecidableEq, Repr

/-- What comes of a request. -/
inductive Reply where
  | symbol (x : Option Symbol)
  | position (p : Option Nat)
  | sourceLength (n : Nat)
  /-- The symbols that were found, each with the position behind it. -/
  | drained (xs : List (Symbol × Nat))
  | copyDrained (xs : List (Symbol × Nat))
  deriving DecidableEq, Repr

/-- What the calls for the next symbol of this cursor have returned, not those of a copy. -/
def Reply.returned : Reply → List (Option Symbol)
  | symbol x => [x]
  | drained xs => xs.map (fun x => some x.1) ++ [none]
  | position _ | sourceLength _ | copyDrained _ => []

def Reply.isOfCopy : Reply → Bool
  | copyDrained _ => true
  | _ => false

/-- What all calls have returned, one after the other. -/
def returned (replies : List Reply) : List (Option Symbol) := replies.flatMap Reply.returned

/-- The reply to a request, and the cursor behind it. -/
def ask (c : Cursor) : Request → Reply × Cursor
  | .next => (.symbol c.next.1, c.next.2)
  | .position => (.position c.position, c)
  | .sourceLength => (.sourceLength c.sourceLength, c)
  | .drain => (.drained c.drain.1, c.drain.2)
  | .drainCopy => (.copyDrained c.drain.1, c)

/-- The cursor behind requests that are made one after the other. -/
def after (c : Cursor) (requests : List Request) : Cursor :=
  requests.foldl (fun c r => (c.ask r).2) c

/-- The replies to requests that are made one after the other. -/
def replies (c : Cursor) : List Request → List Reply
  | [] => []
  | r :: rest => (c.ask r).1 :: (c.ask r).2.replies rest

theorem replies_concat (c : Cursor) (requests : List Request) (r : Request) :
    c.replies (requests ++ [r]) = c.replies requests ++ [((c.after requests).ask r).1] := by
  induction requests generalizing c with
  | nil => rfl
  | cons r' rest ih =>
    rw [List.cons_append, replies, replies, List.cons_append, ih]
    rfl

/-- **Every request is a number of calls** for the next symbol. -/
theorem calls_ask (c : Cursor) (r : Request) : Calls c (c.ask r).1.returned (c.ask r).2 := by
  cases r with
  | next => exact .cons rfl (.nil _)
  | drain => exact c.calls_drain
  | position | sourceLength | drainCopy => exact .nil c

theorem calls_replies (c : Cursor) (requests : List Request) :
    Calls c (returned (c.replies requests)) (c.after requests) := by
  induction requests generalizing c with
  | nil => exact .nil c
  | cons r rest ih => exact (c.calls_ask r).append (ih (c.ask r).2)

/-- The replies to all other requests are what they are without those to copies. -/
theorem replies_filter (c : Cursor) (requests : List Request) :
    c.replies (requests.filter (· ≠ .drainCopy)) =
      (c.replies requests).filter fun reply => !reply.isOfCopy := by
  induction requests generalizing c with
  | nil => rfl
  | cons r rest ih =>
    cases r with
    | drainCopy => exact ih c
    | next | position | sourceLength | drain => exact congrArg (_ :: ·) (ih _)

/-! ## What is replied -/

/-- The reply that a request has to get, given what the earlier calls have returned. -/
inductive Answers (source : List UInt8) (earlier : List (Option Symbol)) :
    Request → Reply → Prop
  | next : Answers source earlier .next (.symbol (symbols source)[earlier.length]?)
  | position {p : Option Nat} (h : LatestAt source earlier.reduceOption p) :
      Answers source earlier .position (.position p)
  | sourceLength : Answers source earlier .sourceLength (.sourceLength source.length)
  | drain {xs : List (Symbol × Nat)} (h : Remaining source earlier.length xs) :
      Answers source earlier .drain (.drained xs)
  | drainCopy {xs : List (Symbol × Nat)} (h : Remaining source earlier.length xs) :
      Answers source earlier .drainCopy (.copyDrained xs)

/-- Replies to requests, each as it has to be behind the earlier ones. -/
inductive Told (source : List UInt8) : List Request → List Reply → Prop
  | nil : Told source [] []
  | concat {requests : List Request} {replies : List Reply} {r : Request} {reply : Reply}
      (h : Told source requests replies) (hreply : Answers source (returned replies) r reply) :
      Told source (requests ++ [r]) (replies ++ [reply])

/-- A call moves the position to a later byte, which is that of the symbol it returns; a
call that returns no symbol leaves the position alone. -/
structure Advances (source : List UInt8) (c : Cursor) : Prop where
  moves : ∀ x, c.next.1 = some x → ∃ q, c.next.2.position = some q ∧
    source[q]? = some x.toByte ∧ ∀ p, c.position = some p → p < q
  stays : c.next.1 = none → c.next.2.position = c.position

namespace Behind

variable {source : List UInt8} {k : Nat} {c : Cursor}

theorem latestAt (h : Behind source k c) :
    LatestAt source ((symbols source).take k) c.position :=
  h.position ▸ latestAt_take_located source k

theorem answers {earlier : List (Option Symbol)} (h : Behind source earlier.length c)
    (hearlier : earlier.reduceOption = (symbols source).take earlier.length) (r : Request) :
    Answers source earlier r (c.ask r).1 := by
  have hdrain : Remaining source earlier.length c.drain.1 := by
    rw [drain_eq, h.left]
    exact remaining_drop_located source earlier.length
  cases r with
  | next =>
    rw [ask, h.next.1]
    exact .next
  | position => exact .position (hearlier ▸ h.latestAt)
  | sourceLength =>
    rw [ask, h.sourceLength]
    exact .sourceLength
  | drain => exact .drain hdrain
  | drainCopy => exact .drainCopy hdrain

theorem advances (h : Behind source k c) : Advances source c := by
  rcases next_cases c with ⟨-, hnext⟩ | ⟨x, q, d, hnext, hleft, hq⟩
  · exact ⟨by simp [hnext], by simp [hnext]⟩
  · refine ⟨?_, by simp [hnext]⟩
    rw [hnext]
    rintro y ⟨⟩
    have hget : (located 0 source)[k]? = some (x, q) := by
      rw [← List.head?_drop, ← h.left, hleft]
      rfl
    have hx := symbolAt_of_located hget
    refine ⟨q, hq, hx.1, ?_⟩
    intro p hp
    -- the position is that of an earlier symbol
    have hlatest := h.latestAt
    rw [hp] at hlatest
    obtain ⟨front, z, hfront, hz⟩ := hlatest
    have hlength := congrArg List.length hfront
    rw [List.length_take, List.length_append, List.length_singleton] at hlength
    exact hz.lt hx (by omega)

end Behind

/-- How a cursor that starts in front of a source deals with requests. -/
structure Walks (source : List UInt8) (requests : List Request) : Prop where
  /-- The requests come down to calls, with all that these have returned. -/
  calls : Calls (ofSource source) (returned ((ofSource source).replies requests))
    ((ofSource source).after requests)
  /-- The `k`-th call returns the `k`-th symbol of the source, or none if there are fewer. -/
  returns : ∀ (k : Nat) x, (returned ((ofSource source).replies requests))[k]? = some x →
    x = (symbols source)[k]?
  /-- Every reply is the one that the request has to get behind the earlier ones. -/
  replies : Told source requests ((ofSource source).replies requests)
  /-- What one more call does to the position. -/
  advances : Advances source ((ofSource source).after requests)
  /-- A drain of a copy makes no difference to any other reply. -/
  copies : (ofSource source).replies (requests.filter (· ≠ .drainCopy)) =
    ((ofSource source).replies requests).filter fun reply => !reply.isOfCopy

/-- **A cursor walks over the symbols of its source,** whatever it is asked for. -/
theorem walks_symbols (source : List UInt8) (requests : List Request) :
    Walks source requests := by
  have key : ∀ requests, Behind source (returned ((ofSource source).replies requests)).length
        ((ofSource source).after requests) ∧
      ∀ (k : Nat) x, (returned ((ofSource source).replies requests))[k]? = some x →
        x = (symbols source)[k]? := by
    intro requests
    have hcalls := (Behind.ofSource source).calls ((ofSource source).calls_replies requests)
    simpa only [Nat.zero_add] using hcalls
  have htold : Told source requests ((ofSource source).replies requests) := by
    induction requests using List.reverseRecOn with
    | nil => exact .nil
    | append_singleton requests r ih =>
      obtain ⟨hbehind, hreturned⟩ := key requests
      rw [replies_concat]
      exact .concat ih (hbehind.answers (reduceOption_eq_take hreturned) r)
  exact ⟨(ofSource source).calls_replies requests, (key requests).2, htold,
    (key requests).1.advances, replies_filter _ requests⟩

/-- A Space, a Tab and a line feed among the bytes of `a`, `b`, `c` and `d`. -/
example : (ofSource [0x61, 0x62, 0x20, 0x09, 0x63, 0x0A, 0x64]).replies
      [.position, .next, .position, .drainCopy, .next, .drain, .next, .position, .sourceLength] =
    [.position none, .symbol (some .space), .position (some 2),
      .copyDrained [(.tab, 3), (.lf, 5)], .symbol (some .tab), .drained [(.lf, 5)],
      .symbol none, .position (some 5), .sourceLength 7] := by
  decide

end Cursor

end Whitespace
