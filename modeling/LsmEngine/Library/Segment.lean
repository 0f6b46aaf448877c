import Mathlib.Data.List.Basic

/-!
# Segments of a list

A list holds another at an offset when the other stands there, element by element. A record that is the concatenation of its
fields stands at an offset exactly when every field stands at its own.
-/

namespace Segment

variable {α : Type*} {l f g : List α} {o : Nat}

/-- `l` holds `f` at the offset `o`. -/
def At (l : List α) (o : Nat) (f : List α) : Prop := ∃ pre post, l = pre ++ (f ++ post) ∧ pre.length = o

/-- A segment stands after what is before it. -/
theorem at_middle (pre f post : List α) : At (pre ++ (f ++ post)) pre.length f := ⟨pre, post, rfl, rfl⟩

/-- A segment ends inside the list. -/
theorem At.le (h : At l o f) : o + f.length ≤ l.length := by
  obtain ⟨pre, post, rfl, rfl⟩ := h
  simp only [List.length_append]
  omega

/-- What stands at an offset is what a slice of the list gives. -/
theorem At.slice (h : At l o f) : (l.drop o).take f.length = f := by
  obtain ⟨pre, post, rfl, rfl⟩ := h
  rw [List.drop_left, List.take_left]

/-- What stands from its place on begins with the segment. -/
theorem At.drop (h : At l o f) : l.drop o = f ++ l.drop (o + f.length) := by
  obtain ⟨pre, post, rfl, rfl⟩ := h
  rw [List.drop_left, ← List.append_assoc, ← List.length_append, List.drop_left]

/-- The element that stands at an offset. -/
theorem At.getD {a : α} (h : At l o [a]) (d : α) : l.getD o d = a := by
  obtain ⟨pre, post, rfl, rfl⟩ := h
  simp [List.getD_eq_getElem?_getD]

/-- A slice stands at its place. -/
theorem at_slice {n : Nat} (h : o + n ≤ l.length) : At l o ((l.drop o).take n) := by
  refine ⟨l.take o, (l.drop o).drop n, ?_, ?_⟩
  · rw [List.take_append_drop, List.take_append_drop]
  · rw [List.length_take]
    omega

/-- The first part of a segment stands at its place. -/
theorem At.left (h : At l o (f ++ g)) : At l o f := by
  obtain ⟨pre, post, rfl, rfl⟩ := h
  exact ⟨pre, g ++ post, by rw [List.append_assoc], rfl⟩

/-- The second part stands after the first. -/
theorem At.right (h : At l o (f ++ g)) : At l (o + f.length) g := by
  obtain ⟨pre, post, rfl, rfl⟩ := h
  exact ⟨pre ++ f, post, by simp only [List.append_assoc], by rw [List.length_append]⟩

/-- Segments that stand one after the other. -/
theorem At.append (h : At l o f) (h' : At l (o + f.length) g) : At l o (f ++ g) := by
  obtain ⟨pre, post, rfl, rfl⟩ := h
  obtain ⟨pre', post', heq, hlen⟩ := h'
  rw [← List.append_assoc] at heq
  obtain ⟨rfl, rfl⟩ := List.append_inj heq (by rw [List.length_append, hlen])
  exact ⟨pre, post', by rw [List.append_assoc], rfl⟩

/-- A segment stands at its place when more is added at the end. -/
theorem At.extend (h : At l o f) (more : List α) : At (l ++ more) o f := by
  obtain ⟨pre, post, rfl, rfl⟩ := h
  exact ⟨pre, post ++ more, by simp only [List.append_assoc], rfl⟩

end Segment
