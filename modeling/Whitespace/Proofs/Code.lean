import Whitespace.Program

/-!
# Pieces of code

Code that is moved keeps its instructions, and the indices of its targets move
along (`Target.relocate`).  So one program can be put behind another one
(`Program.followedBy`).
-/

namespace Whitespace

def Target.relocate (ρ : Nat → Nat) (t : Target) : Target := { t with index := ρ t.index }

namespace Instruction

theorem mapTarget_relocate_id (i : Instruction Target) : i.mapTarget (Target.relocate id) = i :=
  i.mapTarget_id

theorem mapTarget_congr {α β : Type} {f g : α → β} {i : Instruction α}
    (h : ∀ kind t, i = branch kind t → f t = g t) : i.mapTarget f = i.mapTarget g := by
  cases i with
  | branch kind t => rw [mapTarget, mapTarget, h kind t rfl]
  | _ => rfl

end Instruction

namespace Program

/-- A program with another one behind it, whose targets are moved to there. -/
def followedBy (p q : Program) : Program :=
  ofList (p.toList ++ q.toList.map (Instruction.mapTarget (Target.relocate (p.size + ·))))

variable {p q : Program} {i : Nat}

theorem get?_followedBy_of_lt (h : i < p.size) : (p.followedBy q).get? i = p.get? i := by
  rw [size_eq_length] at h
  rw [get?_eq_getElem?, get?_eq_getElem?, followedBy, toList_ofList, List.getElem?_append_left h]

theorem get?_followedBy_add (p q : Program) (i : Nat) :
    (p.followedBy q).get? (p.size + i) =
      (q.get? i).map (Instruction.mapTarget (Target.relocate (p.size + ·))) := by
  rw [get?_eq_getElem?, get?_eq_getElem?, followedBy, toList_ofList, size_eq_length,
    List.getElem?_append_right (Nat.le_add_right ..), Nat.add_sub_cancel_left, List.getElem?_map]

end Program

end Whitespace
