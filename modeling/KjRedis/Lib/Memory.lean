import Mathlib.Data.List.Basic
import Mathlib.Data.List.TakeDrop

/-! Regions of a memory of cells: which of them share no cell, and what a write to one
leaves of the others. -/
namespace Memory

structure Region where
  addr : Nat
  len : Nat
  deriving DecidableEq, Repr

variable {α : Type*} {r s t : Region} {mem : Nat → α} {a b n k : Nat} {xs ys : List α}

/-- The first address behind the region. -/
def Region.limit (r : Region) : Nat := r.addr + r.len

def Region.Within (r s : Region) : Prop := s.addr ≤ r.addr ∧ r.limit ≤ s.limit

/-- No cell lies in both. -/
def Region.Apart (r s : Region) : Prop :=
  r.len = 0 ∨ s.len = 0 ∨ r.limit ≤ s.addr ∨ s.limit ≤ r.addr

theorem Region.Within.refl (r : Region) : r.Within r := ⟨Nat.le_refl _, Nat.le_refl _⟩

theorem Region.Within.trans (h : r.Within s) (h' : s.Within t) : r.Within t :=
  ⟨Nat.le_trans h'.1 h.1, Nat.le_trans h.2 h'.2⟩

theorem Region.Apart.symm (h : r.Apart s) : s.Apart r := by
  unfold Apart at *
  omega

theorem Region.Apart.within (h : s.Apart t) (hr : r.Within s) : r.Apart t := by
  unfold Apart Within limit at *
  omega

def read (mem : Nat → α) (a n : Nat) : List α := (List.range n).map fun i => mem (a + i)

def write (mem : Nat → α) (a : Nat) (xs : List α) : Nat → α :=
  fun x => if h : a ≤ x ∧ x < a + xs.length then xs[x - a] else mem x

/-- One list of cells after the other. -/
def writeAll (mem : Nat → α) : Nat → List (List α) → Nat → α
  | _, [] => mem
  | a, xs :: rest => writeAll (write mem a xs) (a + xs.length) rest

@[simp] theorem length_read : (read mem a n).length = n := by simp [read]

theorem getElem_read (h : k < (read mem a n).length) : (read mem a n)[k] = mem (a + k) := by
  simp [read]

theorem write_apart {x : Nat} (h : x < a ∨ a + xs.length ≤ x) : write mem a xs x = mem x := by
  unfold write
  rw [dif_neg (by omega)]

theorem write_at (h : k < xs.length) : write mem a xs (a + k) = xs[k] := by
  unfold write
  rw [dif_pos (by omega)]
  simp

/-- A region apart from the one written is as it was. -/
theorem read_write_apart (h : Region.Apart ⟨b, n⟩ ⟨a, xs.length⟩) :
    read (write mem a xs) b n = read mem b n := by
  unfold read
  refine List.map_congr_left fun i hi => write_apart ?_
  have := List.mem_range.1 hi
  unfold Region.Apart Region.limit at h
  simp only at h
  omega

/-- Of what was written, a part. -/
theorem read_write_part (h : k + n ≤ xs.length) :
    read (write mem a xs) (a + k) n = (xs.drop k).take n := by
  refine List.ext_getElem ?_ fun i hi _ => ?_
  · rw [length_read, List.length_take, List.length_drop]
    omega
  · rw [length_read] at hi
    rw [getElem_read, Nat.add_assoc, write_at (by omega), List.getElem_take, List.getElem_drop]

theorem read_write_self : read (write mem a xs) a xs.length = xs := by
  have h := @read_write_part α mem a xs.length 0 xs (by omega)
  rwa [Nat.add_zero, List.drop_zero, List.take_length] at h

theorem read_part {m : Nat} (h : k + n ≤ m) :
    ((read mem a m).drop k).take n = read mem (a + k) n := by
  refine List.ext_getElem ?_ fun i hi _ => ?_
  · rw [length_read, List.length_take, List.length_drop, length_read]
    omega
  · rw [List.getElem_take, List.getElem_drop, getElem_read, getElem_read, Nat.add_assoc]

section Cells
variable {size : Nat} {cells : List (List α)}

/-- From `a` on, one behind the other, lie `cells` of `size` cells each. -/
def Holds (mem : Nat → α) (a size : Nat) (cells : List (List α)) : Prop :=
  ∀ i (h : i < cells.length), read mem (a + size * i) size = cells[i]

theorem holds_nil : Holds mem a size [] := fun _ h => absurd h (Nat.not_lt_zero _)

theorem slot_within {i n : Nat} (h : i < n) :
    Region.Within ⟨a + size * i, size⟩ ⟨a, size * n⟩ := by
  have hle : size * (i + 1) ≤ size * n := Nat.mul_le_mul_left size h
  rw [Nat.mul_succ] at hle
  refine ⟨Nat.le_add_right _ _, ?_⟩
  simp only [Region.limit]
  omega

theorem Holds.write_apart (h : Holds mem a size cells)
    (hapart : Region.Apart ⟨a, size * cells.length⟩ ⟨b, xs.length⟩) :
    Holds (write mem b xs) a size cells := by
  intro i hi
  rw [read_write_apart (hapart.within (slot_within hi))]
  exact h i hi

/-- One more cell behind the others. -/
theorem Holds.snoc (h : Holds mem a size cells) (hxs : xs.length = size) :
    Holds (write mem (a + size * cells.length) xs) a size (cells ++ [xs]) := by
  intro i hi
  rw [List.length_append, List.length_singleton] at hi
  rcases Nat.lt_succ_iff_lt_or_eq.1 hi with hlt | rfl
  · have hend := (@slot_within a size i cells.length hlt).2
    simp only [Region.limit] at hend
    rw [List.getElem_append_left hlt, ← h i hlt, read_write_apart]
    exact .inr (.inr (.inl hend))
  · rw [List.getElem_concat_length rfl, ← hxs, read_write_self]

/-- And as many more as are written one after the other. -/
theorem Holds.append {more : List (List α)} (h : Holds mem a size cells)
    (hmore : ∀ xs ∈ more, xs.length = size) :
    Holds (writeAll mem (a + size * cells.length) more) a size (cells ++ more) := by
  induction more generalizing mem cells with
  | nil => rwa [List.append_nil]
  | cons xs more ih =>
    have hxs := hmore xs List.mem_cons_self
    have hrest := ih (h.snoc hxs) fun ys hys => hmore ys (List.mem_cons_of_mem _ hys)
    rw [List.length_append, List.length_singleton, Nat.mul_succ, ← Nat.add_assoc] at hrest
    rw [writeAll, hxs, List.append_cons]
    exact hrest

/-- The cells copied to another place. -/
theorem Holds.copy (h : Holds mem a size cells) (hn : size * cells.length ≤ n) :
    Holds (write mem b (read mem a n)) b size cells := by
  intro i hi
  have hend := (@slot_within a size i cells.length hi).2
  simp only [Region.limit] at hend
  rw [read_write_part (by rw [length_read]; omega), read_part (by omega)]
  exact h i hi

end Cells

end Memory
