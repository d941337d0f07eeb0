import Mathlib.Data.List.Basic

/-! A singly linked list with a pointer to the place where the next cell is to be hung:
the head or the `next` field of a cell. -/

/-- The cells from the head on, and how many of them are before the place the tail
pointer designates. -/
structure TailList (α : Type*) where
  cells : List α
  last : Nat

namespace TailList

variable {α : Type*} {l : TailList α} {a : α} {i : Nat}

def empty : TailList α := ⟨[], 0⟩

def Tailed (l : TailList α) : Prop := l.last = l.cells.length

def enqueue (a : α) (l : TailList α) : TailList α := ⟨l.cells.take l.last ++ [a], l.last + 1⟩

def pushFront (a : α) (l : TailList α) : TailList α := ⟨a :: l.cells, l.last + 1⟩

/-- Takes the first cell off. The tail pointer is set to the head when it was the last. -/
def dequeue (l : TailList α) : Option (α × TailList α) :=
  match l.cells with
  | [] => none
  | a :: rest => some (a, ⟨rest, if rest.isEmpty then 0 else l.last - 1⟩)

/-- Takes a cell out. The tail pointer is set to its place when it was the last. -/
def unlink (i : Nat) (l : TailList α) : TailList α :=
  ⟨l.cells.eraseIdx i, if i + 1 = l.cells.length then i else l.last - 1⟩

@[simp] theorem cells_empty : (empty : TailList α).cells = [] := rfl

theorem tailed_empty : Tailed (empty : TailList α) := rfl

theorem Tailed.eta (h : Tailed l) : ⟨l.cells, l.cells.length⟩ = l := by
  rw [← show l.last = l.cells.length from h]

theorem Tailed.eq_empty (h : Tailed l) (hcells : l.cells = []) : l = empty := by
  rw [← h.eta, hcells]
  rfl

@[simp] theorem cells_enqueue (h : Tailed l) : (l.enqueue a).cells = l.cells ++ [a] := by
  rw [enqueue, h, List.take_length]

theorem Tailed.enqueue (h : Tailed l) : Tailed (l.enqueue a) := by
  unfold Tailed
  rw [cells_enqueue h, List.length_append]
  exact congrArg (· + 1) h

@[simp] theorem cells_pushFront : (l.pushFront a).cells = a :: l.cells := rfl

theorem Tailed.pushFront (h : Tailed l) : Tailed (l.pushFront a) := congrArg (· + 1) h

theorem dequeue_eq_none : l.dequeue = none ↔ l.cells = [] := by
  unfold dequeue
  split <;> simp_all

theorem dequeue_eq_some {l' : TailList α} (h : l.dequeue = some (a, l')) : l.cells = a :: l'.cells := by
  unfold dequeue at h
  split at h
  · cases h
  · next hcells =>
      cases h
      exact hcells

theorem Tailed.dequeue {l' : TailList α} (ht : Tailed l) (h : l.dequeue = some (a, l')) : Tailed l' := by
  unfold TailList.dequeue at h
  split at h
  · cases h
  · next rest hcells =>
      cases h
      unfold Tailed at ht ⊢
      rw [hcells] at ht
      cases rest with
      | nil => rfl
      | cons b rest => simp [ht]

@[simp] theorem cells_unlink : (l.unlink i).cells = l.cells.eraseIdx i := rfl

theorem Tailed.unlink (h : Tailed l) (hi : i < l.cells.length) : Tailed (l.unlink i) := by
  unfold Tailed TailList.unlink at *
  rw [List.length_eraseIdx_of_lt hi]
  dsimp only
  split <;> omega

end TailList
