import Mathlib.Data.List.Nodup
import Mathlib.Logic.Function.Basic

/-! Following a link from node to node up to an end marker. The list of nodes met
is determined by the links, so it has no repetition, and splicing a node in or out
of it changes one link. -/
inductive Chain {α : Type*} (next : α → α) (nil : α) : α → List α → Prop
  | nil : Chain next nil nil []
  | cons {x : α} {xs : List α} : x ≠ nil → Chain next nil (next x) xs → Chain next nil x (x :: xs)

namespace Chain

variable {α β : Type*} {next next' : α → α} {nil a b x : α} {xs ys zs : List α}

theorem cons_iff : Chain next nil a (x :: xs) ↔ a = x ∧ x ≠ nil ∧ Chain next nil (next x) xs := by
  constructor
  · rintro (_ | ⟨hx, h⟩)
    exact ⟨rfl, hx, h⟩
  · rintro ⟨rfl, hx, h⟩
    exact .cons hx h

@[simp] theorem nil_iff : Chain next nil a [] ↔ a = nil := by
  constructor
  · rintro ⟨⟩
    rfl
  · rintro rfl
    exact .nil

theorem unique (h : Chain next nil a xs) (h' : Chain next nil a ys) : xs = ys := by
  induction h generalizing ys with
  | nil =>
      cases h' with
      | nil => rfl
      | cons hx => exact absurd rfl hx
  | cons hx _ ih =>
      cases h' with
      | nil => exact absurd rfl hx
      | cons _ h' => rw [ih h']

theorem ne_nil (h : Chain next nil a xs) (hx : x ∈ xs) : x ≠ nil := by
  induction h with
  | nil => cases hx
  | cons hne _ ih =>
      obtain rfl | hx := List.mem_cons.mp hx
      · exact hne
      · exact ih hx

theorem of_mem (h : Chain next nil a xs) (hx : x ∈ xs) :
    ∃ ys zs, xs = ys ++ x :: zs ∧ Chain next nil x (x :: zs) := by
  induction h with
  | nil => cases hx
  | @cons c cs hne h ih =>
      obtain rfl | hx := List.mem_cons.mp hx
      · exact ⟨[], cs, rfl, .cons hne h⟩
      · obtain ⟨ys, zs, rfl, hz⟩ := ih hx
        exact ⟨c :: ys, zs, rfl, hz⟩

theorem tail (h : Chain next nil a (ys ++ x :: zs)) : Chain next nil x (x :: zs) := by
  induction ys generalizing a with
  | nil =>
      obtain ⟨rfl, -, -⟩ := cons_iff.mp h
      exact h
  | cons c cs ih => exact ih (cons_iff.mp h).2.2

theorem nodup (h : Chain next nil a xs) : xs.Nodup := by
  induction h with
  | nil => exact List.nodup_nil
  | @cons c cs hne h ih =>
      refine List.nodup_cons.mpr ⟨fun hc => ?_, ih⟩
      obtain ⟨ys, zs, hcs, hz⟩ := h.of_mem hc
      have hlen := congrArg List.length (hz.unique (.cons hne h))
      simp [hcs] at hlen
      omega

theorem congr (h : Chain next nil a xs) (hn : ∀ x ∈ xs, next' x = next x) :
    Chain next' nil a xs := by
  induction h with
  | nil => exact .nil
  | @cons c cs hne _ ih =>
      refine .cons hne ?_
      rw [hn c (by simp)]
      exact ih fun x hx => hn x (List.mem_cons_of_mem _ hx)

theorem map {f : α → β} {g : β → β} {n : β} (h : Chain next nil a xs) (hnil : f nil = n)
    (hne : ∀ x ∈ xs, f x ≠ n) (hn : ∀ x ∈ xs, g (f x) = f (next x)) :
    Chain g n (f a) (xs.map f) := by
  induction h with
  | nil => exact hnil ▸ .nil
  | @cons c cs _ _ ih =>
      refine .cons (hne c (by simp)) ?_
      rw [hn c (by simp)]
      exact ih (fun x hx => hne x (List.mem_cons_of_mem _ hx))
        fun x hx => hn x (List.mem_cons_of_mem _ hx)

theorem next_eq {y : α} (h : Chain next nil a (ys ++ y :: x :: zs)) : next y = x := by
  induction ys generalizing a with
  | nil => exact (cons_iff.mp (cons_iff.mp h).2.2).1
  | cons c cs ih => exact ih (cons_iff.mp h).2.2

theorem exists_next {y : α} (h : Chain next nil a xs) (hy : y ∈ xs) (hne : next y ≠ nil) :
    ∃ ys zs, xs = ys ++ y :: next y :: zs := by
  obtain ⟨ys, zs, rfl, hz⟩ := h.of_mem hy
  obtain ⟨-, -, hzs⟩ := cons_iff.mp hz
  cases zs with
  | nil => exact absurd (nil_iff.mp hzs) hne
  | cons z zs => exact ⟨ys, zs, by rw [(cons_iff.mp hzs).1]⟩

variable [DecidableEq α]

theorem bypass {y : α} (h : Chain next nil a (ys ++ y :: x :: zs)) :
    Chain (Function.update next y (next x)) nil a (ys ++ y :: zs) := by
  have hnodup := h.nodup
  induction ys generalizing a with
  | nil =>
      obtain ⟨rfl, hy, hx⟩ := cons_iff.mp h
      obtain ⟨hnext, -, hz⟩ := cons_iff.mp hx
      rw [List.nil_append, List.nodup_cons] at hnodup
      refine .cons hy ?_
      rw [Function.update_self]
      refine hz.congr fun z hz => Function.update_of_ne ?_ _ _
      rintro rfl
      exact hnodup.1 (List.mem_cons_of_mem _ hz)
  | cons c cs ih =>
      obtain ⟨rfl, hc, hcs⟩ := cons_iff.mp h
      rw [List.cons_append, List.nodup_cons] at hnodup
      refine .cons hc ?_
      rw [Function.update_of_ne]
      · exact ih hcs hnodup.2
      · rintro rfl
        exact hnodup.1 (by simp)

theorem to_front {y : α} (h : Chain next nil a (ys ++ y :: x :: zs)) :
    Chain (Function.update (Function.update next y (next x)) x a) nil x (x :: (ys ++ y :: zs)) := by
  have hx : x ∉ ys ++ y :: zs := by
    have hnodup : (x :: (ys ++ y :: zs)).Nodup := by
      refine h.nodup.perm ?_
      rw [List.append_cons]
      exact List.perm_middle.trans (by simp)
    exact (List.nodup_cons.mp hnodup).1
  refine .cons (h.ne_nil (by simp)) ?_
  rw [Function.update_self]
  refine h.bypass.congr fun z hz => Function.update_of_ne ?_ _ _
  rintro rfl
  exact hx hz

theorem snoc {y : α} (h : Chain next nil a (ys ++ [y])) (hb : b ∉ ys ++ [y]) (hne : b ≠ nil) :
    Chain (Function.update (Function.update next y b) b nil) nil a (ys ++ [y, b]) := by
  have hnodup := h.nodup
  induction ys generalizing a with
  | nil =>
      obtain ⟨rfl, hy, -⟩ := cons_iff.mp h
      have hby : b ≠ a := by simpa using hb
      refine .cons hy ?_
      rw [Function.update_of_ne hby.symm, Function.update_self]
      refine .cons hne ?_
      rw [Function.update_self]
      exact .nil
  | cons c cs ih =>
      obtain ⟨rfl, hc, hcs⟩ := cons_iff.mp h
      rw [List.cons_append, List.nodup_cons] at hnodup
      rw [List.cons_append, List.mem_cons, not_or] at hb
      refine .cons hc ?_
      rw [Function.update_of_ne (Ne.symm hb.1), Function.update_of_ne]
      · exact ih hcs hb.2 hnodup.2
      · rintro rfl
        exact hnodup.1 (by simp)

end Chain
