import LambdaMoo.StrIntern
import Mathlib.Data.List.Nodup

/-! What the table of shared strings holds over all the calls of a load. -/
namespace LambdaMoo
namespace StrIntern

def home (e : InternEntry) : Nat := e.hash.toNat

def ends {α : Type} : Option α → Except Stop α
  | none => .error .endless
  | some x => .ok x

theorem ok_bind_stop {α β : Type} (x : α) (k : α → Except Stop β) :
    ((Except.ok x : Except Stop α) >>= k) = k x := rfl

/-! Sizes. -/

theorem normalizeLoop_ends (requested : Nat) : ∀ {fuel k : Nat}, 63 ≤ fuel + k →
    ¬ (normalizeLoop requested fuel (2 ^ k) < requested ∧
      normalizeLoop requested fuel (2 ^ k) ≤ sizeMax / 2)
  | 0, k, h, hsize => by
      have hpow : 2 ^ 63 ≤ 2 ^ k := Nat.pow_le_pow_right (by decide) (by omega)
      have hmax : sizeMax / 2 < 2 ^ 63 := by decide
      exact absurd (Nat.lt_of_le_of_lt hsize.2 hmax) (Nat.not_lt.mpr hpow)
  | fuel + 1, k, h, hsize => by
      unfold normalizeLoop at hsize
      split at hsize
      · rw [← Nat.pow_succ] at hsize
        exact normalizeLoop_ends requested (by omega) hsize
      · rename_i hstop
        exact hstop hsize

theorem normalizeTableSize_ends (requested : Nat) :
    ¬ (normalizeTableSize requested < requested ∧ normalizeTableSize requested ≤ sizeMax / 2) :=
  @normalizeLoop_ends requested 60 4 (by decide)

theorem normalizeLoop_pow {requested : Nat} (h : requested ≤ 2 ^ 31) :
    ∀ {fuel k : Nat}, 4 ≤ k → k ≤ 31 →
      ∃ k', 4 ≤ k' ∧ k' ≤ 31 ∧ normalizeLoop requested fuel (2 ^ k) = 2 ^ k'
  | 0, k, hlow, hhigh => ⟨k, hlow, hhigh, rfl⟩
  | fuel + 1, k, hlow, hhigh => by
      unfold normalizeLoop
      split
      · rename_i hsize
        have hk : k < 31 := (Nat.pow_lt_pow_iff_right (by decide)).mp (Nat.lt_of_lt_of_le hsize.1 h)
        rw [← Nat.pow_succ]
        exact normalizeLoop_pow h (by omega) (by omega)
      · exact ⟨k, hlow, hhigh, rfl⟩

theorem makeInternTable_ok {size : Nat} (hpos : 0 < size) (h : entrySize * size ≤ ptrdiffMax) :
    makeInternTable size = .ok (List.replicate size none) := by
  have hmax : ptrdiffMax < 2 ^ 64 := by decide
  have hsize : sizeT (entrySize * size) = entrySize * size := Nat.mod_eq_of_lt (by omega)
  have hbytes : 0 < entrySize * size := Nat.mul_pos (by decide) hpos
  unfold makeInternTable
  rw [hsize, mymalloc_ok (by omega) (by exact_mod_cast h)]
  simp only
  rw [if_neg (by omega)]

theorem makeInternTable_panic {size : Nat} (h : ptrdiffMax < entrySize * size)
    (h' : entrySize * size < 2 ^ 64) : makeInternTable size = .error (.crash .panic) := by
  have hsize : sizeT (entrySize * size) = entrySize * size := Nat.mod_eq_of_lt h'
  have hpanic : mymalloc (sizeT (entrySize * size)) = .error .panic :=
    mymalloc_panic (by rw [hsize]; omega)
  unfold makeInternTable
  rw [hpanic]

/-! The loops, for a size that the mask fits. -/

section
variable {table : Table} {k : Nat}

theorem mask_eq (hsize : table.length = 2 ^ k) (i : Nat) :
    i &&& (table.length - 1) = i % table.length := by
  rw [hsize, Nat.and_two_pow_sub_one_eq_mod]

theorem insertLoop_eq (hsize : table.length = 2 ^ k) (entry : InternEntry) :
    ∀ (fuel : Nat) {index : Nat}, index < table.length →
      insertLoop table entry fuel index =
        ends ((Probing.probe Option.isNone table fuel index).map fun i => table.set i (some entry))
  | 0, _, _ => rfl
  | fuel + 1, index, hindex => by
      have hnext := Nat.mod_lt (index + 1) (Nat.zero_lt_of_lt hindex)
      unfold insertLoop Probing.probe
      rw [List.getElem?_eq_getElem hindex]
      cases table[index] with
      | none => rfl
      | some e =>
        simp only [mask_eq hsize]
        exact insertLoop_eq hsize entry fuel hnext

theorem insertInternEntry_eq (hsize : table.length = 2 ^ k) (entry : InternEntry) :
    insertInternEntry table entry = ends (Probing.insert table (home entry % table.length) entry) := by
  unfold insertInternEntry internIndex
  rw [mask_eq hsize]
  exact insertLoop_eq hsize entry _ (Nat.mod_lt _ (by rw [hsize]; exact Nat.two_pow_pos k))

theorem findLoop_eq (hsize : table.length = 2 ^ k) (s : Str) (len : Nat) (hash : UInt32) :
    ∀ (fuel : Nat) {index : Nat}, index < table.length →
      findLoop table s len hash fuel index =
        ends ((Probing.probe (·.all (·.holds s len hash)) table fuel index).map
          fun i => (table[i]?).join)
  | 0, _, _ => rfl
  | fuel + 1, index, hindex => by
      have hnext := Nat.mod_lt (index + 1) (Nat.zero_lt_of_lt hindex)
      unfold findLoop Probing.probe
      rw [List.getElem?_eq_getElem hindex]
      cases hslot : table[index] with
      | none => simp [ends, List.getElem?_eq_getElem hindex, hslot]
      | some e =>
        show (if e.holds s len hash = true then _ else _) =
          ends (Option.map _ (if e.holds s len hash = true then _ else _))
        by_cases hholds : e.holds s len hash = true
        · rw [if_pos hholds, if_pos hholds]
          simp [ends, List.getElem?_eq_getElem hindex, hslot]
        · rw [if_neg hholds, if_neg hholds, mask_eq hsize]
          exact findLoop_eq hsize s len hash fuel hnext

theorem findInternedString_eq (hsize : table.length = 2 ^ k) (s : Str) (len : Nat) (hash : UInt32) :
    findInternedString table s len hash =
      ends (Probing.find (·.holds s len hash) table (hash.toNat % table.length)) := by
  unfold findInternedString internIndex
  rw [mask_eq hsize]
  exact findLoop_eq hsize s len hash _ (Nat.mod_lt _ (by rw [hsize]; exact Nat.two_pow_pos k))

theorem rehashLoop_eq : ∀ (old : List (Option InternEntry)) {table : Table},
    table.length = 2 ^ k →
      rehashLoop old table = ends (Probing.insertAll home old.reduceOption table)
  | [], _, _ => rfl
  | none :: old, table, hsize => rehashLoop_eq old hsize
  | some entry :: old, table, hsize => by
      unfold rehashLoop
      rw [insertInternEntry_eq hsize, List.reduceOption_cons_of_some]
      unfold Probing.insertAll
      cases hinsert : Probing.insert table (home entry % table.length) entry with
      | none => rfl
      | some next => exact rehashLoop_eq old ((Probing.insert_length hinsert).trans hsize)

end

/-! What the table holds. -/

structure InternEntry.Valid (next : Nat) (e : InternEntry) : Prop where
  len : e.len = e.s.bytes.length
  hash : e.hash = strHash e.s.bytes
  bytes : e.s.bytes ≠ []
  address : 0 < e.s.address ∧ e.s.address < next

def strings (table : Table) : List CString := table.reduceOption.map (·.s)

/-- The table is open, it is not too full, and its entries are reached, each with a string of its
own. -/
structure Sharing (st : Interning) (table : Table) : Prop where
  opened : st.table = some table
  size : ∃ k, 4 ≤ k ∧ k ≤ 58 ∧ table.length = 2 ^ k
  count : st.count = table.reduceOption.length
  load : st.count ≤ table.length * 3 / 4
  probes : Probing.Sound home table
  valid : ∀ e ∈ table.reduceOption, e.Valid st.next
  distinct : ((strings table).map (·.bytes)).Nodup
  addresses : ((strings table).map (·.address)).Nodup
  next : 0 < st.next

theorem InternEntry.Valid.holds_iff {next : Nat} {e : InternEntry} (h : e.Valid next) (s : Str) :
    e.holds s s.length (strHash s) = true ↔ e.s.bytes = s := by
  unfold InternEntry.holds
  rw [h.len, h.hash]
  constructor
  · intro hholds
    simp only [Bool.and_eq_true, beq_iff_eq] at hholds
    obtain ⟨⟨-, hlen⟩, hbytes⟩ := hholds
    rw [List.take_length, ← hlen, List.take_length] at hbytes
    exact hbytes.symm
  · rintro rfl
    simp

namespace Sharing

variable {st : Interning} {table : Table}

theorem free (h : Sharing st table) : none ∈ table := by
  obtain ⟨k, -, -, hsize⟩ := h.size
  have hpos : 0 < table.length := by rw [hsize]; exact Nat.two_pow_pos k
  have hcount := h.count
  have hload := h.load
  exact Probing.free_of_lt (by omega)

theorem find (h : Sharing st table) (s : Str) :
    ∃ r, findInternedString table s s.length (strHash s) = .ok r ∧
      (∀ e, r = some e → e ∈ table.reduceOption ∧ e.s.bytes = s) ∧
      (r = none → ∀ e ∈ table.reduceOption, e.s.bytes ≠ s) := by
  obtain ⟨k, -, -, hsize⟩ := h.size
  obtain ⟨r, hfind, hsome, hnone⟩ := Probing.find_spec h.free h.probes
    (·.holds s s.length (strHash s)) (strHash s).toNat
  refine ⟨r, by rw [findInternedString_eq hsize, hfind]; rfl, ?_, ?_⟩
  · intro e he
    obtain ⟨hmem, hholds⟩ := hsome e he
    exact ⟨hmem, ((h.valid e hmem).holds_iff s).mp hholds⟩
  · rintro hr e he rfl
    have hhome : home e = (strHash e.s.bytes).toNat := congrArg UInt32.toNat (h.valid e he).hash
    have := hnone hr e he hhome
    rw [((h.valid e he).holds_iff _).mpr rfl] at this
    cases this

theorem rehash (h : Sharing st table) :
    (∃ table', internRehash table (table.length * 2) = .ok table' ∧
      table'.length = table.length * 2 ∧ table.length < 2 ^ 58 ∧ Probing.Sound home table' ∧
      table'.reduceOption.Perm table.reduceOption) ∨
    internRehash table (table.length * 2) = .error (.crash .panic) ∧ table.length = 2 ^ 58 := by
  obtain ⟨k, -, hk, hsize⟩ := h.size
  have hmax : ptrdiffMax = 9223372036854775807 := by decide
  have hpos : 0 < table.length := by rw [hsize]; exact Nat.two_pow_pos k
  unfold internRehash
  obtain rfl | hlt := Nat.eq_or_lt_of_le hk
  · refine .inr ⟨?_, hsize⟩
    rw [makeInternTable_panic (by rw [hsize, hmax]; decide) (by rw [hsize]; decide)]
    rfl
  · have hle : table.length ≤ 2 ^ 57 := by
      rw [hsize]
      exact Nat.pow_le_pow_right (by decide) (by omega)
    have hcount := h.count
    have hload := h.load
    obtain ⟨table', hinsert, hsound, hlength, hperm⟩ := @Probing.insertAll_spec _ home
      table.reduceOption _ (Probing.sound_replicate (table.length * 2))
      (by rw [List.reduceOption_replicate_none, List.length_replicate, List.length_nil]; omega)
    rw [List.length_replicate] at hlength
    rw [List.reduceOption_replicate_none, List.append_nil] at hperm
    refine .inl ⟨table', ?_, hlength, by omega, hsound, hperm⟩
    rw [makeInternTable_ok (by omega) (by unfold entrySize; omega), ok_bind_stop,
      rehashLoop_eq table (k := k + 1) (by rw [List.length_replicate, hsize, Nat.pow_succ]), hinsert]
    rfl

/-- Before an entry is inserted there is room for it, and the entries are those that there were. -/
theorem grow (h : Sharing st table) :
    (∃ table', growTable table st.count = .ok table' ∧
      (∃ k, 4 ≤ k ∧ k ≤ 58 ∧ table'.length = 2 ^ k) ∧ st.count < table'.length * 3 / 4 ∧
      Probing.Sound home table' ∧ table'.reduceOption.Perm table.reduceOption) ∨
    growTable table st.count = .error (.crash .panic) ∧ 3 * 2 ^ 56 ≤ st.count := by
  obtain ⟨k, hlow, hk, hsize⟩ := h.size
  have hle : table.length ≤ 2 ^ 58 := by rw [hsize]; exact Nat.pow_le_pow_right (by decide) hk
  have hge : 2 ^ 4 ≤ table.length := by rw [hsize]; exact Nat.pow_le_pow_right (by decide) hlow
  have hload := h.load
  have hthird : sizeT (table.length * 3) = table.length * 3 := Nat.mod_eq_of_lt (by omega)
  have htwice : sizeT (table.length * 2) = table.length * 2 := Nat.mod_eq_of_lt (by omega)
  unfold growTable
  rw [hthird, htwice]
  by_cases hfull : table.length * 3 / 4 ≤ st.count
  · rw [if_pos hfull]
    obtain ⟨table', hrehash, hlength, hlt, hsound, hperm⟩ | ⟨hpanic, hlength⟩ := h.rehash
    · refine .inl ⟨table', hrehash, ⟨k + 1, by omega, ?_, ?_⟩, by omega, hsound, hperm⟩
      · have : k < 58 := (Nat.pow_lt_pow_iff_right (a := 2) (by decide)).mp (hsize ▸ hlt)
        omega
      · rw [hlength, hsize, Nat.pow_succ]
    · exact .inr ⟨hpanic, by omega⟩
  · rw [if_neg hfull]
    exact .inl ⟨table, rfl, ⟨k, hlow, hk, hsize⟩, by omega, h.probes, .refl _⟩

theorem insert (h : Sharing st table) {s : Str} (hs : s ≠ [])
    (hnew : ∀ e ∈ table.reduceOption, e.s.bytes ≠ s) {grown : Table}
    (hsize : ∃ k, 4 ≤ k ∧ k ≤ 58 ∧ grown.length = 2 ^ k) (hroom : st.count < grown.length * 3 / 4)
    (hsound : Probing.Sound home grown) (hperm : grown.reduceOption.Perm table.reduceOption) :
    ∃ table', insertInternEntry grown ⟨⟨st.next, s⟩, s.length, strHash s⟩ = .ok table' ∧
      Sharing { st with next := st.next + 1, table := some table', count := sizeT (st.count + 1) }
        table' ∧
      (strings table').Perm (⟨st.next, s⟩ :: strings table) := by
  obtain ⟨k, hlow, hk, hlength⟩ := hsize
  have hle : grown.length ≤ 2 ^ 58 := by rw [hlength]; exact Nat.pow_le_pow_right (by decide) hk
  have hcount := hperm.length_eq
  rw [← h.count] at hcount
  have hsucc : sizeT (st.count + 1) = st.count + 1 := Nat.mod_eq_of_lt (by omega)
  obtain ⟨table', hinsert, hsound', hlength', hadded⟩ := Probing.insert_spec
    (Probing.free_of_lt (by omega)) hsound ⟨⟨st.next, s⟩, s.length, strHash s⟩
  have hentries := hadded.trans (hperm.cons _)
  have hstrings : (strings table').Perm (⟨st.next, s⟩ :: strings table) :=
    hentries.map InternEntry.s
  refine ⟨table', by rw [insertInternEntry_eq hlength, hinsert]; rfl, ?_, hstrings⟩
  refine ⟨rfl, ⟨k, hlow, hk, hlength'.trans hlength⟩, ?_, ?_, hsound', ?_, ?_, ?_, Nat.succ_pos _⟩
  · have := hentries.length_eq
    rw [List.length_cons, ← h.count] at this
    exact hsucc.trans this.symm
  · simp only [hsucc, hlength']
    omega
  · intro e he
    obtain rfl | hold := List.mem_cons.mp (hentries.mem_iff.mp he)
    · exact ⟨rfl, rfl, hs, h.next, Nat.lt_succ_self _⟩
    · obtain ⟨hlen, hhash, hbytes, hpos, hlt⟩ := h.valid e hold
      exact ⟨hlen, hhash, hbytes, hpos, Nat.lt_succ_of_lt hlt⟩
  · refine (hstrings.map (·.bytes)).nodup_iff.mpr (List.nodup_cons.mpr ⟨?_, h.distinct⟩)
    intro hmem
    obtain ⟨c, hc, hbytes⟩ := List.mem_map.mp hmem
    obtain ⟨e, he, rfl⟩ := List.mem_map.mp hc
    exact hnew e he hbytes
  · refine (hstrings.map (·.address)).nodup_iff.mpr (List.nodup_cons.mpr ⟨?_, h.addresses⟩)
    intro hmem
    obtain ⟨c, hc, haddress⟩ := List.mem_map.mp hmem
    obtain ⟨e, he, rfl⟩ := List.mem_map.mp hc
    exact absurd haddress (Nat.ne_of_lt (h.valid e he).address.2)

theorem intern (h : Sharing st table) (s : Option Str) :
    (∃ r st' table', strIntern st s = .ok (r, st') ∧ Sharing st' table' ∧
      r.bytes = s.getD [] ∧ (r.bytes = [] → r = emptyString) ∧
      (∀ c, c ∈ strings table' ↔ c ∈ strings table ∨ c = r ∧ r.bytes ≠ []) ∧
      st'.count ≤ st.count + 1) ∨
    strIntern st s = .error (.crash .panic) ∧ 3 * 2 ^ 56 ≤ st.count := by
  have hempty : ∀ c, c ∈ strings table ↔
      c ∈ strings table ∨ c = emptyString ∧ emptyString.bytes ≠ [] := fun c =>
    ⟨.inl, fun hc => hc.elim id fun hc => absurd rfl hc.2⟩
  match s with
  | none => exact .inl ⟨_, _, _, rfl, h, rfl, fun _ => rfl, hempty, Nat.le_succ _⟩
  | some [] => exact .inl ⟨_, _, _, rfl, h, rfl, fun _ => rfl, hempty, Nat.le_succ _⟩
  | some (c :: cs) =>
    unfold strIntern
    simp only [h.opened]
    obtain ⟨found, hfind, hsome, hnone⟩ := h.find (c :: cs)
    rw [hfind, ok_bind_stop]
    cases found with
    | some e =>
      obtain ⟨hmem, hbytes⟩ := hsome e rfl
      have hin : e.s ∈ strings table := List.mem_map_of_mem hmem
      refine .inl ⟨_, _, table, rfl, ⟨rfl, h.size, h.count, h.load, h.probes, h.valid,
        h.distinct, h.addresses, h.next⟩, hbytes, ?_, ?_, Nat.le_succ _⟩
      · intro hnil
        exact absurd hnil (h.valid e hmem).bytes
      · intro c'
        constructor
        · exact .inl
        · rintro (hc | ⟨rfl, -⟩)
          · exact hc
          · exact hin
    | none =>
      obtain ⟨grown, hgrow, hsize, hroom, hsound, hperm⟩ | ⟨hgrow, hfull⟩ := h.grow
      · obtain ⟨table', hinsert, hshare, hstrings⟩ :=
          h.insert (List.cons_ne_nil c cs) (hnone rfl) hsize hroom hsound hperm
        refine .inl ⟨⟨st.next, c :: cs⟩, _, table', ?_, hshare, rfl, ?_, ?_, ?_⟩
        · simp only [hgrow, ok_bind_stop, strDup, hinsert]
          rfl
        · intro hnil
          cases hnil
        · intro c'
          rw [hstrings.mem_iff, List.mem_cons]
          constructor
          · rintro (rfl | hc)
            · exact .inr ⟨rfl, List.cons_ne_nil c cs⟩
            · exact .inl hc
          · rintro (hc | ⟨rfl, -⟩)
            · exact .inr hc
            · exact .inl rfl
        · exact Nat.mod_le _ _
      · exact .inr ⟨by simp only [hgrow]; rfl, hfull⟩

theorem internAll : ∀ {st : Interning} {table : Table}, Sharing st table →
    ∀ args : List (Option Str),
      (∃ refs st' table', internAll args st = .ok (refs, st') ∧ Sharing st' table' ∧
        refs.map (·.bytes) = args.map (·.getD []) ∧
        (∀ r ∈ refs, r.bytes = [] → r = emptyString) ∧
        ∀ c, c ∈ strings table' ↔ c ∈ strings table ∨ c ∈ refs ∧ c.bytes ≠ []) ∨
      internAll args st = .error (.crash .panic) ∧ 3 * 2 ^ 56 ≤ st.count + args.length
  | st, table, h, [] => by
      refine .inl ⟨[], st, table, rfl, h, rfl, fun r hr => absurd hr List.not_mem_nil, fun c => ?_⟩
      simp
  | st, table, h, s :: more => by
      unfold StrIntern.internAll
      obtain ⟨r, st', table', hcall, h', hbytes, hnil, hstrings, hcount⟩ | ⟨hcall, hfull⟩ := h.intern s
      · rw [hcall, ok_bind_stop]
        obtain ⟨refs, st'', table'', hrest, h'', hmore, hnils, hall⟩ | ⟨hrest, hfull⟩ := h'.internAll more
        · refine .inl ⟨r :: refs, st'', table'', by simp only [hrest]; rfl, h'', ?_, ?_, ?_⟩
          · rw [List.map_cons, List.map_cons, hbytes, hmore]
          · intro c hc
            obtain rfl | hc := List.mem_cons.mp hc
            · exact hnil
            · exact hnils c hc
          · intro c
            rw [hall, hstrings, List.mem_cons, or_assoc]
            refine or_congr_right ?_
            constructor
            · rintro (⟨rfl, hne⟩ | ⟨hc, hne⟩)
              · exact ⟨.inl rfl, hne⟩
              · exact ⟨.inr hc, hne⟩
            · rintro ⟨rfl | hc, hne⟩
              · exact .inl ⟨rfl, hne⟩
              · exact .inr ⟨hc, hne⟩
        · exact .inr ⟨by simp only [hrest]; rfl, by rw [List.length_cons]; omega⟩
      · exact .inr ⟨by rw [hcall]; rfl, by omega⟩

theorem entry_of_bytes (h : Sharing st table) {e e' : InternEntry} (he : e ∈ table.reduceOption)
    (he' : e' ∈ table.reduceOption) (hbytes : e.s.bytes = e'.s.bytes) : e = e' := by
  have hdistinct := h.distinct
  unfold strings at hdistinct
  rw [List.map_map] at hdistinct
  exact List.inj_on_of_nodup_map hdistinct he he' hbytes

theorem entry_of_address (h : Sharing st table) {e e' : InternEntry} (he : e ∈ table.reduceOption)
    (he' : e' ∈ table.reduceOption) (haddress : e.s.address = e'.s.address) : e = e' := by
  have hdistinct := h.addresses
  unfold strings at hdistinct
  rw [List.map_map] at hdistinct
  exact List.inj_on_of_nodup_map hdistinct he he' haddress

theorem shared (h : Sharing st table) {r r' : CString}
    (hr : r ∈ strings table ∨ r = emptyString) (hr' : r' ∈ strings table ∨ r' = emptyString) :
    r.address = r'.address ↔ r.bytes = r'.bytes := by
  obtain hr | rfl := hr
  · obtain ⟨e, he, rfl⟩ := List.mem_map.mp hr
    obtain hr' | rfl := hr'
    · obtain ⟨e', he', rfl⟩ := List.mem_map.mp hr'
      exact ⟨fun ha => by rw [h.entry_of_address he he' ha],
        fun hb => by rw [h.entry_of_bytes he he' hb]⟩
    · exact ⟨fun ha => absurd ha (Nat.ne_of_gt (h.valid e he).address.1),
        fun hb => absurd hb (h.valid e he).bytes⟩
  · obtain hr' | rfl := hr'
    · obtain ⟨e', he', rfl⟩ := List.mem_map.mp hr'
      exact ⟨fun ha => absurd ha (Nat.ne_of_lt (h.valid e' he').address.1),
        fun hb => absurd hb.symm (h.valid e' he').bytes⟩
    · exact Iff.intro (fun _ => rfl) (fun _ => rfl)

theorem found_after (h : Sharing st table) {table' : Table}
    (hrehash : internRehash table (table.length * 2) = .ok table') :
    table'.reduceOption.Perm table.reduceOption ∧
      ∀ e ∈ table.reduceOption, findInternedString table' e.s.bytes e.len e.hash = .ok (some e) := by
  obtain ⟨k, -, -, hsize⟩ := h.size
  have hpos : 0 < table.length := by rw [hsize]; exact Nat.two_pow_pos k
  obtain ⟨_, hok, hlength, -, hsound, hperm⟩ | ⟨hpanic, -⟩ := h.rehash
  · obtain rfl := Except.ok.inj (hok.symm.trans hrehash)
    refine ⟨hperm, fun e he => ?_⟩
    have hcount := hperm.length_eq
    have hload := h.load
    rw [← h.count] at hcount
    have hvalid := h.valid e he
    obtain ⟨r, hfind, hsome, hnone⟩ := Probing.find_spec (Probing.free_of_lt (by omega)) hsound
      (·.holds e.s.bytes e.len e.hash) e.hash.toNat
    rw [findInternedString_eq (k := k + 1) (by rw [hlength, hsize, Nat.pow_succ]), hfind]
    have hholds : e.holds e.s.bytes e.len e.hash = true := by
      rw [hvalid.len, hvalid.hash]
      exact (hvalid.holds_iff _).mpr rfl
    cases r with
    | none =>
      have := hnone rfl e (hperm.mem_iff.mpr he) rfl
      rw [hholds] at this
      cases this
    | some e' =>
      obtain ⟨hmem, hfound⟩ := hsome e' rfl
      have he' := hperm.mem_iff.mp hmem
      rw [hvalid.len, hvalid.hash, (h.valid e' he').holds_iff] at hfound
      rw [h.entry_of_bytes he' he hfound]
      rfl
  · rw [hpanic] at hrehash
    cases hrehash

end Sharing

theorem sharing_open {tableSize : Int} (hlow : 0 ≤ tableSize) (hhigh : tableSize ≤ intMax) :
    ∃ st table, strInternOpen .initial tableSize = .ok st ∧ Sharing st table ∧ strings table = [] ∧
      st.count = 0 := by
  have hmax := intMax_eq
  obtain ⟨requested, hrequested, hle⟩ :
      ∃ requested, ((if tableSize = 0 then 10007 else tableSize) % 2 ^ 64).toNat = requested ∧
        requested ≤ 2 ^ 31 := by
    refine ⟨_, rfl, ?_⟩
    split <;> omega
  obtain ⟨k, hklow, hk, hsize⟩ := @normalizeLoop_pow requested hle 60 4 (by decide) (by decide)
  have hpow : 2 ^ k ≤ 2 ^ 31 := Nat.pow_le_pow_right (by decide) hk
  have hbytes : entrySize * 2 ^ k ≤ ptrdiffMax := by
    have hlimit : ptrdiffMax = 9223372036854775807 := by decide
    unfold entrySize
    omega
  have htable : makeInternTable (normalizeTableSize requested) = .ok (List.replicate (2 ^ k) none) := by
    unfold normalizeTableSize
    rw [show 16 = 2 ^ 4 by decide, hsize]
    exact makeInternTable_ok (Nat.two_pow_pos k) hbytes
  have hnone : strings (List.replicate (2 ^ k) none) = [] := by
    unfold strings
    rw [List.reduceOption_replicate_none]
    rfl
  refine ⟨⟨some (List.replicate (2 ^ k) none), 0, 0, 0, 1⟩, List.replicate (2 ^ k) none, ?_, ⟨rfl, ⟨k, hklow, by omega, List.length_replicate⟩, ?_,
    Nat.zero_le _, Probing.sound_replicate _, ?_, ?_, ?_, Nat.one_pos⟩, hnone, rfl⟩
  · unfold strInternOpen
    simp only [hrequested, htable]
    rfl
  · rw [List.reduceOption_replicate_none]
    rfl
  · rw [List.reduceOption_replicate_none]
    exact fun e he => absurd he List.not_mem_nil
  · rw [hnone]
    exact List.nodup_nil
  · rw [hnone]
    exact List.nodup_nil

/-- What interning is for: each string comes back as it is, the same strings and no others share an
entry, and the table keeps a free slot, so that the probes end, and its entries when it grows. -/
structure Faithful (args : List (Option Str)) (refs : List CString) (table : Table) : Prop where
  bytes : refs.map (·.bytes) = args.map (·.getD [])
  shared : ∀ r ∈ refs, ∀ r' ∈ refs, r.address = r'.address ↔ r.bytes = r'.bytes
  entries : (strings table).Nodup ∧ ∀ c, c ∈ strings table ↔ c ∈ refs ∧ c.bytes ≠ []
  free : none ∈ table
  lookups : ∀ s len hash, ∃ r, findInternedString table s len hash = .ok r
  insertions : ∀ e, ∃ table', insertInternEntry table e = .ok table'
  growth : ∀ table', internRehash table (table.length * 2) = .ok table' →
    table'.reduceOption.Perm table.reduceOption ∧
      ∀ e ∈ table.reduceOption, findInternedString table' e.s.bytes e.len e.hash = .ok (some e)
  growth_ends : ∀ stop, internRehash table (table.length * 2) = .error stop → stop = .crash .panic

/-- Interning is faithful over every load. A table of more than 2^58 slots is not allocated. -/
theorem interning_faithful {tableSize : Int} (hlow : 0 ≤ tableSize) (hhigh : tableSize ≤ intMax)
    (args : List (Option Str)) :
    (∃ refs st table, internLoad tableSize args = .ok (refs, st) ∧ st.table = some table ∧
      Faithful args refs table) ∨
    internLoad tableSize args = .error (.crash .panic) ∧ 3 * 2 ^ 56 ≤ args.length := by
  obtain ⟨st, table, hopen, h, hnone, hcount⟩ := sharing_open hlow hhigh
  unfold internLoad
  rw [hopen, ok_bind_stop]
  obtain ⟨refs, st', table', hcalls, h', hbytes, hnil, hstrings⟩ | ⟨hcalls, hfull⟩ := h.internAll args
  · have hentries : ∀ c, c ∈ strings table' ↔ c ∈ refs ∧ c.bytes ≠ [] := by
      intro c
      rw [hstrings, hnone]
      simp
    have hrefs : ∀ r ∈ refs, r ∈ strings table' ∨ r = emptyString := by
      intro r hr
      by_cases hempty : r.bytes = []
      · exact .inr (hnil r hr hempty)
      · exact .inl ((hentries r).mpr ⟨hr, hempty⟩)
    obtain ⟨k, -, -, hsize⟩ := h'.size
    refine .inl ⟨refs, st', table', hcalls, h'.opened, hbytes, ?_, ⟨h'.distinct.of_map _, hentries⟩,
      h'.free, ?_, ?_, fun _ => h'.found_after, ?_⟩
    · exact fun r hr r' hr' => h'.shared (hrefs r hr) (hrefs r' hr')
    · intro s len hash
      obtain ⟨r, hfind, -, -⟩ := Probing.find_spec h'.free h'.probes (·.holds s len hash) hash.toNat
      exact ⟨r, by rw [findInternedString_eq hsize, hfind]; rfl⟩
    · intro e
      obtain ⟨next, hinsert, -, -, -⟩ := Probing.insert_spec h'.free h'.probes e
      exact ⟨next, by rw [insertInternEntry_eq hsize, hinsert]; rfl⟩
    · intro stop hstop
      obtain ⟨next, hok, -⟩ | ⟨hpanic, -⟩ := h'.rehash
      · rw [hok] at hstop
        cases hstop
      · exact (Except.error.inj (hstop.symm.trans hpanic))
  · exact .inr ⟨hcalls, by omega⟩

theorem interning_faithful_case :
    (∃ refs st table, internLoad 0 [some ['a'], some ['A'], some ['a'], some []] = .ok (refs, st) ∧
      st.table = some table ∧
      Faithful [some ['a'], some ['A'], some ['a'], some []] refs table) ∨
    internLoad 0 [some ['a'], some ['A'], some ['a'], some []] = .error (.crash .panic) ∧
      3 * 2 ^ 56 ≤ [some ['a'], some ['A'], some ['a'], some []].length :=
  interning_faithful (by decide) (by decide) _

end StrIntern
end LambdaMoo
