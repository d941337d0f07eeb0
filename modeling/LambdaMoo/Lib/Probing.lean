import Mathlib.Data.List.Perm.Basic
import Mathlib.Data.List.ReduceOption
import Mathlib.Data.Nat.Find

/-! Open addressing with linear probing. A table is a list of slots of which some are free. An
entry is looked for from its home on, around the table, up to the first free slot; so each entry
has to be where no free slot is passed on the way to it. -/
namespace Probing

abbrev Table (α : Type*) := List (Option α)

variable {α : Type*}

def slot (table : Table α) (i : Nat) : Option α := (table[i % table.length]?).join

/-- The first slot from `i` on where the probe stops; none if it does not within `fuel` steps. -/
def probe (stops : Option α → Bool) (table : Table α) : Nat → Nat → Option Nat
  | 0, _ => none
  | fuel + 1, i =>
      if stops (table[i]?).join then some i
      else probe stops table fuel ((i + 1) % table.length)

/-- The entry that a probe from `i` on for what is wanted ends with. -/
def find (wanted : α → Bool) (table : Table α) (i : Nat) : Option (Option α) :=
  (probe (·.all wanted) table table.length i).map fun i => (table[i]?).join

def insert (table : Table α) (i : Nat) (e : α) : Option (Table α) :=
  (probe Option.isNone table table.length i).map fun i => table.set i (some e)

def insertAll (home : α → Nat) : List α → Table α → Option (Table α)
  | [], table => some table
  | e :: es, table => (insert table (home e % table.length) e).bind (insertAll home es)

def Reached (table : Table α) (start : Nat) (e : α) : Prop :=
  ∃ d, slot table (start + d) = some e ∧ ∀ j < d, (slot table (start + j)).isSome

def Sound (home : α → Nat) (table : Table α) : Prop :=
  ∀ e ∈ table.reduceOption, Reached table (home e) e

variable {table : Table α} {home : α → Nat} {stops : Option α → Bool} {e : α}

theorem sound_replicate (n : Nat) : Sound home (List.replicate n none) := by
  intro e he
  rw [List.reduceOption_replicate_none] at he
  cases he

theorem free_of_lt (h : table.reduceOption.length < table.length) : none ∈ table :=
  List.reduceOption_length_lt_iff.mp h

/-! Probes. -/

theorem probe_eq {d : Nat} : ∀ {start fuel : Nat},
    (∀ j < d, stops (slot table (start + j)) = false) → stops (slot table (start + d)) = true →
    d < fuel → probe stops table fuel (start % table.length) = some ((start + d) % table.length) := by
  induction d with
  | zero =>
    intro start fuel _ hd hfuel
    obtain ⟨fuel, rfl⟩ := Nat.exists_eq_add_one.mpr hfuel
    exact if_pos hd
  | succ d ih =>
    intro start fuel hbefore hd hfuel
    obtain ⟨fuel, rfl⟩ := Nat.exists_eq_add_one.mpr (Nat.zero_lt_of_lt hfuel)
    have hfirst : stops (table[start % table.length]?).join = false := hbefore 0 (by omega)
    unfold probe
    rw [hfirst, if_neg (by decide), Nat.mod_add_mod, ih ?_ ?_ (by omega)]
    · rw [show start + 1 + d = start + (d + 1) by omega]
    · intro j hj
      rw [show start + 1 + j = start + (j + 1) by omega]
      exact hbefore (j + 1) (by omega)
    · rw [show start + 1 + d = start + (d + 1) by omega]
      exact hd

theorem exists_steps {i : Nat} (hi : i < table.length) (start : Nat) :
    ∃ d < table.length, (start + d) % table.length = i := by
  have hstart := Nat.mod_lt start (Nat.zero_lt_of_lt hi)
  refine ⟨(i + (table.length - start % table.length)) % table.length,
    Nat.mod_lt _ (Nat.zero_lt_of_lt hi), ?_⟩
  rw [Nat.add_mod_mod, ← Nat.mod_add_mod,
    show start % table.length + (i + (table.length - start % table.length)) = i + table.length by
      omega, Nat.add_mod_right, Nat.mod_eq_of_lt hi]

theorem probe_ends (hfree : none ∈ table) (hnone : stops none = true) (start : Nat) :
    ∃ d < table.length, probe stops table table.length (start % table.length)
        = some ((start + d) % table.length) ∧
      stops (slot table (start + d)) = true ∧
      ∀ j < d, stops (slot table (start + j)) = false := by
  classical
  obtain ⟨i, hi, hslot⟩ := List.mem_iff_getElem.mp hfree
  obtain ⟨d, hd, hdi⟩ := exists_steps hi start
  have hstop : ∃ d, stops (slot table (start + d)) = true :=
    ⟨d, by unfold slot; rw [hdi, List.getElem?_eq_getElem hi, hslot]; exact hnone⟩
  have hle : Nat.find hstop ≤ d := Nat.find_min' hstop <| by
    unfold slot
    rw [hdi, List.getElem?_eq_getElem hi, hslot]
    exact hnone
  have hbefore : ∀ j < Nat.find hstop, stops (slot table (start + j)) = false := fun j hj =>
    Bool.not_eq_true _ ▸ Nat.find_min hstop hj
  exact ⟨_, by omega, probe_eq hbefore (Nat.find_spec hstop) (by omega), Nat.find_spec hstop, hbefore⟩

theorem mem_of_slot {i : Nat} (h : slot table i = some e) : e ∈ table.reduceOption := by
  unfold slot at h
  rw [List.reduceOption_mem_iff]
  exact List.mem_of_getElem? (Option.join_eq_some_iff.mp h)

theorem find_spec (hfree : none ∈ table) (h : Sound home table) (wanted : α → Bool) (start : Nat) :
    ∃ r, find wanted table (start % table.length) = some r ∧
      (∀ e, r = some e → e ∈ table.reduceOption ∧ wanted e = true) ∧
      (r = none → ∀ e ∈ table.reduceOption, home e = start → wanted e = false) := by
  obtain ⟨d, -, hprobe, hstop, hbefore⟩ := @probe_ends _ _ (·.all wanted) hfree rfl start
  refine ⟨slot table (start + d), by unfold find; rw [hprobe]; rfl, ?_, ?_⟩
  · intro e he
    rw [he] at hstop
    exact ⟨mem_of_slot he, hstop⟩
  · intro hnone e he hhome
    obtain ⟨k, hk, hpath⟩ := h e he
    rw [hhome] at hk hpath
    have hlt : k < d := by
      by_contra hge
      obtain hlt | rfl := Nat.lt_or_eq_of_le (Nat.le_of_not_lt hge)
      · have := hpath d hlt
        rw [hnone] at this
        cases this
      · rw [hnone] at hk
        cases hk
    have := hbefore k hlt
    rw [hk] at this
    exact this

/-! Insertion. -/

theorem slot_set {i : Nat} (hi : i < table.length) (x : Option α) (k : Nat) :
    slot (table.set i x) k = if k % table.length = i then x else slot table k := by
  unfold slot
  rw [List.length_set, List.getElem?_set]
  by_cases hk : k % table.length = i
  · rw [if_pos hk.symm, if_pos hk, if_pos hi]
    cases x <;> rfl
  · rw [if_neg (Ne.symm hk), if_neg hk]

theorem insert_length {i : Nat} {table' : Table α} (h : insert table i e = some table') :
    table'.length = table.length := by
  obtain ⟨k, -, rfl⟩ := Option.map_eq_some_iff.mp h
  exact List.length_set

theorem Reached.set {start i : Nat} (h : Reached table start e) (hi : i < table.length)
    (hfree : table[i]? = some none) (x : α) : Reached (table.set i (some x)) start e := by
  have hstays : ∀ k, (slot table k).isSome → slot (table.set i (some x)) k = slot table k := by
    intro k hk
    rw [slot_set hi, if_neg]
    intro hki
    unfold slot at hk
    rw [hki, hfree] at hk
    cases hk
  obtain ⟨d, hd, hpath⟩ := h
  refine ⟨d, (hstays _ (by rw [hd]; rfl)).trans hd, fun j hj => ?_⟩
  rw [hstays _ (hpath j hj)]
  exact hpath j hj

theorem reduceOption_set {i : Nat} (hi : i < table.length) (hfree : table[i]? = some none) (x : α) :
    (table.set i (some x)).reduceOption.Perm (x :: table.reduceOption) := by
  have hold : table[i] = none := by
    rw [List.getElem?_eq_getElem hi] at hfree
    exact Option.some.inj hfree
  have hnew : (table.set i (some x)).reduceOption.Perm (some x :: table.eraseIdx i).reduceOption :=
    (List.set_perm_cons_eraseIdx hi _).filterMap _
  have hrest : (none :: table.eraseIdx i).reduceOption.Perm table.reduceOption := by
    have := (List.getElem_cons_eraseIdx_perm hi).filterMap (fun o : Option α => o)
    rw [hold] at this
    exact this
  rw [List.reduceOption_cons_of_some] at hnew
  exact hnew.trans (hrest.cons x)

theorem insert_spec (hfree : none ∈ table) (h : Sound home table) (e : α) :
    ∃ table', insert table (home e % table.length) e = some table' ∧ Sound home table' ∧
      table'.length = table.length ∧ table'.reduceOption.Perm (e :: table.reduceOption) := by
  obtain ⟨d, -, hprobe, hstop, hbefore⟩ := @probe_ends _ _ Option.isNone hfree rfl (home e)
  have hi : (home e + d) % table.length < table.length :=
    Nat.mod_lt _ (List.length_pos_of_mem hfree)
  have hslot : table[(home e + d) % table.length]? = some none := by
    unfold slot at hstop
    rw [List.getElem?_eq_getElem hi] at hstop ⊢
    exact congrArg some (Option.isNone_iff_eq_none.mp hstop)
  refine ⟨table.set ((home e + d) % table.length) (some e), by unfold insert; rw [hprobe]; rfl,
    ?_, List.length_set, reduceOption_set hi hslot e⟩
  intro e' he'
  obtain rfl | hold := List.mem_cons.mp ((reduceOption_set hi hslot e).mem_iff.mp he')
  · refine ⟨d, by rw [slot_set hi, if_pos rfl], fun j hj => ?_⟩
    rw [slot_set hi]
    split
    · rfl
    · exact Option.isSome_iff_ne_none.mpr fun hnone => by
        have := hbefore j hj
        rw [hnone] at this
        cases this
  · exact (h e' hold).set hi hslot e

/-- What is inserted into a table that is large enough is what is in it afterwards. -/
theorem insertAll_spec {es : List α} : ∀ {table : Table α}, Sound home table →
    es.length + table.reduceOption.length ≤ table.length →
    ∃ table', insertAll home es table = some table' ∧ Sound home table' ∧
      table'.length = table.length ∧ table'.reduceOption.Perm (es ++ table.reduceOption) := by
  induction es with
  | nil => exact fun h _ => ⟨_, rfl, h, rfl, .refl _⟩
  | cons e es ih =>
    intro table h hroom
    rw [List.length_cons] at hroom
    obtain ⟨next, hnext, hsound, hlength, hperm⟩ := insert_spec (free_of_lt (by omega)) h e
    have hcount := hperm.length_eq
    rw [List.length_cons] at hcount
    obtain ⟨table', htable, hsound', hlength', hperm'⟩ := ih hsound (by omega)
    refine ⟨table', by unfold insertAll; rw [hnext]; exact htable, hsound', hlength'.trans hlength,
      hperm'.trans ?_⟩
    exact (hperm.append_left es).trans List.perm_middle

end Probing
