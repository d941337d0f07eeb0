import Mathlib.Data.List.FinRange
import LambdaMoo.Streams
import LambdaMoo.Lib.Chain

/-! The compiled patterns that `match` keeps. The entries are linked in the order in which they were
last used, and the last one is used again for a pattern that is not among them. -/
namespace LambdaMoo

/-- The rest of a charset, up to its `]`, and what comes after it. -/
def charsetRest : Str → Option (Str × Str)
  | [] => none
  | c :: p =>
      if c = ']' then some ([c], p)
      else (charsetRest p).map fun (set, p) => (c :: set, p)

def charsetStart : Str → Str × Str
  | '^' :: ']' :: p => (['^', ']'], p)
  | '^' :: p => (['^'], p)
  | ']' :: p => ([']'], p)
  | p => ([], p)

theorem charsetRest_length {p set rest : Str} (h : charsetRest p = some (set, rest)) :
    rest.length < p.length := by
  induction p generalizing set with
  | nil => cases h
  | cons c p ih =>
      unfold charsetRest at h
      split at h
      · cases h
        exact Nat.lt_succ_self _
      · obtain ⟨⟨set', rest'⟩, h', heq⟩ := Option.map_eq_some_iff.mp h
        cases heq
        exact Nat.lt_succ_of_lt (ih h')

theorem charsetStart_length (p : Str) : (charsetStart p).2.length ≤ p.length := by
  unfold charsetStart
  split
  · simp only [List.length_cons]
    omega
  · exact Nat.le_succ _
  · exact Nat.le_succ _
  · exact le_rfl

def translatePattern : Str → Option Str
  | [] => some []
  | ['%'] => none
  | '%' :: c :: p =>
      let quoted := if c ∈ ".*+?[^$|()123456789bB<>wW".toList then ['\\', c] else [c]
      (translatePattern p).map (quoted ++ ·)
  | '\\' :: p => (translatePattern p).map (['\\', '\\'] ++ ·)
  | '[' :: p =>
      match h : charsetRest (charsetStart p).2 with
      | none => none
      | some (set, rest) =>
          have : rest.length < p.length := (charsetRest_length h).trans_le (charsetStart_length p)
          (translatePattern rest).map ('[' :: (charsetStart p).1 ++ set ++ ·)
  | c :: p => (translatePattern p).map (c :: ·)
termination_by p => p.length
decreasing_by
  all_goals
    simp only [List.length_cons]
    omega

/-- The compiled patterns that are in memory, by their addresses. An address is never given out a
second time, so that what has been freed is not found there any more. -/
structure PatternMemory (R : Type) where
  regexps : Nat → Option R
  fresh : Nat

/-- A `Pattern`; none is the null pointer. -/
abbrev Pattern := Option Nat

section Memory

variable {R : Type} (reCompilePattern : Str → Bool → Option R)

/-- What a string compiles to. The compiler is told the translated pattern and whether case matters. -/
def compiled (pattern : Str) (caseMatters : Bool) : Option R :=
  (translatePattern pattern).bind fun tpattern => reCompilePattern tpattern caseMatters

def newPattern (pattern : Str) (caseMatters : Bool) (memory : PatternMemory R) :
    Pattern × PatternMemory R :=
  match compiled reCompilePattern pattern caseMatters with
  | some buf => (some memory.fresh,
      { regexps := Function.update memory.regexps memory.fresh (some buf), fresh := memory.fresh + 1 })
  | none => (none, memory)

end Memory

namespace PatternMemory

variable {R : Type}

/-- `free_pattern(p)`. To free a second time what is no longer there is an error. -/
def freePattern (memory : PatternMemory R) : Pattern → Option (PatternMemory R)
  | none => some memory
  | some buf =>
      match memory.regexps buf with
      | none => none
      | some _ => some { memory with regexps := Function.update memory.regexps buf none }

/-- What is found at a pointer. It is an error to look at what has been freed. -/
def deref (memory : PatternMemory R) : Pattern → Option (Option R)
  | none => some none
  | some buf => (memory.regexps buf).map some

end PatternMemory

structure PatCacheEntry (n : Nat) where
  string : Option Str
  caseMatters : Bool
  pattern : Pattern
  next : Option (Fin n)

/-- `pat_cache_entries`, with the pointer to the first one of them and the memory. -/
structure PatternCache (R : Type) (n : Nat) where
  patCache : Option (Fin n)
  patCacheEntries : Fin n → PatCacheEntry n
  memory : PatternMemory R

namespace PatternCache

variable {R : Type} {n : Nat}

def setupPatternCache : PatternCache R (n + 1) where
  patCache := some 0
  patCacheEntries i :=
    { string := none
      caseMatters := false
      pattern := none
      next := if h : i.val + 1 < n + 1 then some ⟨i.val + 1, h⟩ else none }
  memory := ⟨fun _ => none, 0⟩

def isFor (c : PatternCache R n) (i : Fin n) (string : Str) (caseMatters : Bool) : Bool :=
  (c.patCacheEntries i).string = some string && (c.patCacheEntries i).caseMatters = caseMatters

def setNext (c : PatternCache R n) (i : Fin n) (target : Option (Fin n)) : PatternCache R n :=
  { c with patCacheEntries :=
      Function.update c.patCacheEntries i { c.patCacheEntries i with next := target } }

def store (c : PatternCache R n) (entryPtr target : Option (Fin n)) : PatternCache R n :=
  match entryPtr with
  | none => { c with patCache := target }
  | some i => c.setNext i target

/-- The loop of `get_pattern` for so many entries: the pointer through which it has come to an entry,
the entry, and whether it is for the string or only the last one. -/
def search (c : PatternCache R n) (string : Str) (caseMatters : Bool) :
    Nat → Option (Fin n) → Fin n → Option (Option (Fin n) × Fin n × Bool)
  | 0, _, _ => none
  | fuel + 1, entryPtr, entry =>
      if c.isFor entry string caseMatters then some (entryPtr, entry, true)
      else
        match (c.patCacheEntries entry).next with
        | none => some (entryPtr, entry, false)
        | some next => search c string caseMatters fuel (some entry) next

def reuse (c : PatternCache R n) (reCompilePattern : Str → Bool → Option R) (i : Fin n) (string : Str)
    (caseMatters : Bool) : Option (PatternCache R n) := do
  let entry := c.patCacheEntries i
  let memory ← (if entry.string.isSome then c.memory.freePattern entry.pattern else some c.memory)
  let (pattern, memory) := newPattern reCompilePattern string caseMatters memory
  some { c with
    patCacheEntries := Function.update c.patCacheEntries i
      { entry with
        pattern := pattern
        caseMatters := caseMatters
        string := if pattern.isNone then none else some string }
    memory := memory }

def toFront (c : PatternCache R n) (entryPtr : Option (Fin n)) (i : Fin n) : PatternCache R n :=
  let c := c.store entryPtr (c.patCacheEntries i).next
  let c := c.setNext i c.patCache
  { c with patCache := some i }

/-- `get_pattern(string, case_matters)`; none is a loop that does not end or a wrong use of memory. -/
def getPattern (c : PatternCache R n) (reCompilePattern : Str → Bool → Option R) (string : Str)
    (caseMatters : Bool) : Option (Pattern × PatternCache R n) := do
  let first ← c.patCache
  let (entryPtr, i, hit) ← c.search string caseMatters n none first
  let c ← (if hit then some c else c.reuse reCompilePattern i string caseMatters)
  let c := c.toFront entryPtr i
  some ((c.patCacheEntries i).pattern, c)

/-- One call of `get_pattern` after the other. What is found at the pointer that a call has returned is
looked at before the next call. -/
def getPatterns (c : PatternCache R n) (reCompilePattern : Str → Bool → Option R) :
    List (Str × Bool) → Option (List (Option R) × PatternCache R n)
  | [] => some ([], c)
  | (string, caseMatters) :: calls => do
      let (p, c) ← c.getPattern reCompilePattern string caseMatters
      let found ← c.memory.deref p
      let (rest, c) ← getPatterns c reCompilePattern calls
      some (found :: rest, c)

/-! The links of the entries. -/

def follow (c : PatternCache R n) : Option (Fin n) → Option (Fin n)
  | none => none
  | some i => (c.patCacheEntries i).next

/-- The entries, in the order in which they are linked. -/
def Linked (c : PatternCache R n) (ids : List (Fin n)) : Prop :=
  Chain c.follow none c.patCache (ids.map some)

variable {c : PatternCache R n} {i j : Fin n} {target : Option (Fin n)} {ids before after : List (Fin n)}

theorem follow_setNext : (c.setNext i target).follow = Function.update c.follow (some i) target := by
  funext at'
  cases at' with
  | none => rfl
  | some j =>
      by_cases h : j = i
      · subst h
        simp [follow, setNext]
      · rw [Function.update_of_ne (fun h' => h (Option.some.inj h'))]
        simp [follow, setNext, h]

theorem Linked.toFront (h : c.Linked (before ++ i :: after)) :
    (c.toFront before.getLast? i).Linked (i :: (before ++ after)) := by
  rcases List.eq_nil_or_concat before with rfl | ⟨ws, y, rfl⟩
  · obtain ⟨hfirst, -, -⟩ := Chain.cons_iff.mp h
    have hfollow : (c.toFront none i).follow = c.follow := by
      show ((c.store none _).setNext i _).follow = _
      rw [follow_setNext]
      exact Function.update_eq_self (some i) c.follow
    unfold Linked
    rw [List.getLast?_nil, hfollow]
    rw [Linked, hfirst] at h
    exact h
  · have hfollow : (c.toFront (some y) i).follow =
        Function.update (Function.update c.follow (some y) (c.follow (some i))) (some i) c.patCache := by
      show ((c.setNext y _).setNext i _).follow = _
      rw [follow_setNext, follow_setNext]
      rfl
    unfold Linked
    rw [List.concat_eq_append, List.getLast?_concat, hfollow]
    have h' : Chain c.follow none c.patCache (ws.map some ++ some y :: some i :: after.map some) := by
      simpa [Linked] using h
    show Chain _ none (some i) _
    simpa using h'.to_front

theorem search_spec {string : Str} {caseMatters : Bool} {fuel : Nat} {entryPtr : Option (Fin n)}
    {rest : List (Fin n)} (h : Chain c.follow none (some i) ((i :: rest).map some))
    (hfuel : rest.length < fuel) :
    ∃ before j after,
      c.search string caseMatters fuel entryPtr i =
        some (before.getLast?.or entryPtr, j, c.isFor j string caseMatters) ∧
      i :: rest = before ++ j :: after := by
  induction fuel generalizing entryPtr i rest with
  | zero => exact absurd hfuel (Nat.not_lt_zero _)
  | succ fuel ih =>
      unfold search
      by_cases hfor : c.isFor i string caseMatters = true
      · refine ⟨[], i, rest, ?_, rfl⟩
        rw [if_pos hfor, hfor]
        rfl
      · rw [if_neg hfor]
        obtain ⟨-, -, hrest⟩ := Chain.cons_iff.mp h
        cases rest with
        | nil =>
            have hnext : (c.patCacheEntries i).next = none := Chain.nil_iff.mp hrest
            refine ⟨[], i, [], ?_, rfl⟩
            rw [hnext, Bool.eq_false_iff.mpr hfor]
            rfl
        | cons j rest =>
            have hnext : (c.patCacheEntries i).next = some j := (Chain.cons_iff.mp hrest).1
            have hrest' : Chain c.follow none (some j) ((j :: rest).map some) := hnext ▸ hrest
            obtain ⟨before, k, after, hk, heq⟩ :=
              @ih j (some i) rest hrest' (Nat.lt_of_succ_lt_succ hfuel)
            refine ⟨i :: before, k, after, ?_, by rw [heq, List.cons_append]⟩
            rw [hnext]
            show c.search string caseMatters fuel (some i) j = _
            rw [hk]
            cases before with
            | nil => rfl
            | cons b before => simp [List.getLast?_cons]

/-! What the entries are for, and the memory that they hold on to. -/

structure Held where
  string : Option Str
  caseMatters : Bool
  pattern : Pattern

def held (c : PatternCache R n) (i : Fin n) : Held :=
  { string := (c.patCacheEntries i).string
    caseMatters := (c.patCacheEntries i).caseMatters
    pattern := (c.patCacheEntries i).pattern }

@[simp] theorem held_setNext : (c.setNext i target).held = c.held := by
  funext j
  by_cases h : j = i
  · subst h
    simp [held, setNext]
  · simp [held, setNext, h]

@[simp] theorem held_store {entryPtr : Option (Fin n)} : (c.store entryPtr target).held = c.held := by
  cases entryPtr with
  | none => rfl
  | some i => exact held_setNext

@[simp] theorem held_toFront {entryPtr : Option (Fin n)} : (c.toFront entryPtr i).held = c.held := by
  show ((c.store entryPtr _).setNext i _).held = _
  rw [held_setNext, held_store]

@[simp] theorem memory_toFront {entryPtr : Option (Fin n)} : (c.toFront entryPtr i).memory = c.memory := by
  cases entryPtr <;> rfl

/-- Each entry with a string holds on to a pattern of its own, which is in memory and is what the
string compiles to. -/
structure Paired (reCompilePattern : Str → Bool → Option R) (held : Fin n → Held)
    (memory : PatternMemory R) : Prop where
  allocated : ∀ buf, memory.regexps buf ≠ none → buf < memory.fresh
  keyed : ∀ i string, (held i).string = some string → ∃ buf r, (held i).pattern = some buf ∧
    memory.regexps buf = some r ∧ compiled reCompilePattern string (held i).caseMatters = some r
  unkeyed : ∀ i, (held i).string = none → (held i).pattern = none
  separate : ∀ i j buf, (held i).pattern = some buf → (held j).pattern = some buf → i = j

section Pairing

variable {reCompilePattern : Str → Bool → Option R} {held : Fin n → Held} {memory memory' : PatternMemory R}
  {string : Str} {caseMatters : Bool} {pattern : Pattern}

theorem Paired.live (h : Paired reCompilePattern held memory) {buf : Nat} (hi : (held i).pattern = some buf) :
    ∃ r, memory.regexps buf = some r := by
  cases hs : (held i).string with
  | none => rw [h.unkeyed i hs] at hi; cases hi
  | some s =>
      obtain ⟨buf', r, hbuf, hr, -⟩ := h.keyed i s hs
      rw [hi] at hbuf
      cases hbuf
      exact ⟨r, hr⟩

theorem Paired.free (h : Paired reCompilePattern held memory) :
    ∃ memory', (if (held i).string.isSome then memory.freePattern (held i).pattern else some memory) =
        some memory' ∧ memory'.fresh = memory.fresh ∧
      (∀ buf, memory'.regexps buf ≠ none → memory.regexps buf ≠ none) ∧
      ∀ buf, (held i).pattern ≠ some buf → memory'.regexps buf = memory.regexps buf := by
  cases hs : (held i).string with
  | none => exact ⟨memory, rfl, rfl, fun _ => id, fun _ _ => rfl⟩
  | some s =>
      obtain ⟨buf, r, hbuf, hr, -⟩ := h.keyed i s hs
      refine ⟨{ memory with regexps := Function.update memory.regexps buf none }, ?_, rfl, ?_, ?_⟩
      · rw [hbuf]
        simp [PatternMemory.freePattern, hr]
      · intro buf' hbuf'
        by_cases heq : buf' = buf
        · subst heq
          simp at hbuf'
        · simpa [heq] using hbuf'
      · intro buf' hne
        rw [hbuf] at hne
        exact Function.update_of_ne (fun heq => hne (congrArg some heq.symm)) _ _

theorem newPattern_spec (hnew : newPattern reCompilePattern string caseMatters memory = (pattern, memory'))
    (hallocated : ∀ buf, memory.regexps buf ≠ none → buf < memory.fresh) :
    memory'.deref pattern = some (compiled reCompilePattern string caseMatters) ∧
    (∀ buf, pattern = some buf → buf = memory.fresh) ∧
    (∀ buf, buf < memory.fresh → memory'.regexps buf = memory.regexps buf) ∧
    ∀ buf, memory'.regexps buf ≠ none → buf < memory'.fresh := by
  unfold newPattern at hnew
  split at hnew
  · next r hr =>
      cases hnew
      refine ⟨by simp [PatternMemory.deref, hr], ?_, ?_, ?_⟩
      · intro buf hbuf
        exact (Option.some.inj hbuf).symm
      · intro buf hbuf
        exact Function.update_of_ne hbuf.ne _ _
      · intro buf hbuf
        by_cases heq : buf = memory.fresh
        · rw [heq]
          exact Nat.lt_succ_self _
        · refine Nat.lt_succ_of_lt (hallocated buf ?_)
          simpa [heq] using hbuf
  · next hr =>
      cases hnew
      refine ⟨by rw [hr]; rfl, ?_, fun _ _ => rfl, hallocated⟩
      intro buf hbuf
      cases hbuf

/-- An entry is filled with a new pattern after what it held on to has been freed. -/
theorem Paired.refill {freed : PatternMemory R} (h : Paired reCompilePattern held memory)
    (hfresh : freed.fresh = memory.fresh)
    (hfewer : ∀ buf, freed.regexps buf ≠ none → memory.regexps buf ≠ none)
    (hrest : ∀ buf, (held i).pattern ≠ some buf → freed.regexps buf = memory.regexps buf)
    (hnew : newPattern reCompilePattern string caseMatters freed = (pattern, memory')) :
    Paired reCompilePattern
      (Function.update held i ⟨if pattern.isNone then none else some string, caseMatters, pattern⟩) memory' := by
  obtain ⟨hderef, hfrom, holder, hallocated⟩ := newPattern_spec hnew
    fun buf hbuf => hfresh ▸ h.allocated buf (hfewer buf hbuf)
  -- What another entry holds on to is older than the new pattern, and is still there.
  have hother : ∀ j buf, j ≠ i → (held j).pattern = some buf →
      buf < freed.fresh ∧ memory'.regexps buf = memory.regexps buf := by
    intro j buf hj hbuf
    obtain ⟨r, hr⟩ := h.live hbuf
    have hlt : buf < freed.fresh := hfresh ▸ h.allocated buf (by simp [hr])
    have hne : (held i).pattern ≠ some buf := fun hi => hj (h.separate j i buf hbuf hi)
    exact ⟨hlt, (holder buf hlt).trans (hrest buf hne)⟩
  refine ⟨hallocated, ?_, ?_, ?_⟩
  · intro j s hs
    by_cases hj : j = i
    · subst hj
      rw [Function.update_self] at hs ⊢
      cases pattern with
      | none => cases hs
      | some buf =>
          cases hs
          obtain ⟨r, hr, hcompiled⟩ := Option.map_eq_some_iff.mp hderef
          exact ⟨buf, r, rfl, hr, hcompiled.symm⟩
    · rw [Function.update_of_ne hj] at hs ⊢
      obtain ⟨buf, r, hbuf, hr, hcompiled⟩ := h.keyed j s hs
      exact ⟨buf, r, hbuf, (hother j buf hj hbuf).2.trans hr, hcompiled⟩
  · intro j hs
    by_cases hj : j = i
    · subst hj
      rw [Function.update_self] at hs ⊢
      cases pattern with
      | none => rfl
      | some buf => cases hs
    · rw [Function.update_of_ne hj] at hs ⊢
      exact h.unkeyed j hs
  · intro j k buf hj hk
    by_cases hji : j = i <;> by_cases hki : k = i
    · rw [hji, hki]
    · subst hji
      rw [Function.update_self] at hj
      rw [Function.update_of_ne hki] at hk
      exact absurd (hfrom buf hj) (hother k buf hki hk).1.ne
    · subst hki
      rw [Function.update_self] at hk
      rw [Function.update_of_ne hji] at hj
      exact absurd (hfrom buf hk) (hother j buf hji hj).1.ne
    · rw [Function.update_of_ne hji] at hj
      rw [Function.update_of_ne hki] at hk
      exact h.separate j k buf hj hk

end Pairing

/-! What holds of the cache between the calls. -/

structure Sound (reCompilePattern : Str → Bool → Option R) (c : PatternCache R n) : Prop where
  linked : ∃ ids, ids.Perm (List.finRange n) ∧ c.Linked ids
  paired : Paired reCompilePattern c.held c.memory

variable {reCompilePattern : Str → Bool → Option R} {string : Str} {caseMatters : Bool}

theorem Sound.hit (h : c.Sound reCompilePattern) (hi : c.isFor i string caseMatters = true) :
    c.memory.deref (c.held i).pattern = some (compiled reCompilePattern string caseMatters) := by
  unfold isFor at hi
  rw [Bool.and_eq_true, decide_eq_true_eq, decide_eq_true_eq] at hi
  obtain ⟨buf, r, hbuf, hr, hcompiled⟩ := h.paired.keyed i string hi.1
  have hcase : (c.held i).caseMatters = caseMatters := hi.2
  rw [hcase] at hcompiled
  rw [hbuf, hcompiled]
  simp [PatternMemory.deref, hr]

theorem Sound.reuse (h : c.Sound reCompilePattern) :
    ∃ c', c.reuse reCompilePattern i string caseMatters = some c' ∧ c'.follow = c.follow ∧
      c'.patCache = c.patCache ∧ Paired reCompilePattern c'.held c'.memory ∧
      c'.memory.deref (c'.held i).pattern = some (compiled reCompilePattern string caseMatters) := by
  obtain ⟨freed, hfree, hfresh, hfewer, hrest⟩ := h.paired.free (i := i)
  cases hnew : newPattern reCompilePattern string caseMatters freed with
  | mk pattern memory' =>
      have hfree' : (if (c.patCacheEntries i).string.isSome then
          c.memory.freePattern (c.patCacheEntries i).pattern else some c.memory) = some freed := hfree
      have hreuse : c.reuse reCompilePattern i string caseMatters = some
          { c with
            patCacheEntries := Function.update c.patCacheEntries i
              { c.patCacheEntries i with
                pattern := pattern
                caseMatters := caseMatters
                string := if pattern.isNone then none else some string }
            memory := memory' } := by
        unfold PatternCache.reuse
        simp only [hfree', hnew, Option.bind_eq_bind, Option.bind_some]
      have hheld : ∀ c', c.reuse reCompilePattern i string caseMatters = some c' →
          c'.held = Function.update c.held i
            ⟨if pattern.isNone then none else some string, caseMatters, pattern⟩ := by
        intro c' hc'
        cases hreuse.symm.trans hc'
        funext j
        by_cases hj : j = i
        · subst hj
          simp [held]
        · simp [held, hj]
      refine ⟨_, hreuse, ?_, rfl, ?_, ?_⟩
      · funext at'
        cases at' with
        | none => rfl
        | some j =>
            by_cases hj : j = i
            · subst hj
              simp [follow]
            · simp [follow, hj]
      · rw [hheld _ hreuse]
        exact h.paired.refill hfresh hfewer hrest hnew
      · rw [hheld _ hreuse, Function.update_self]
        exact (newPattern_spec hnew fun buf hbuf => hfresh ▸ h.paired.allocated buf (hfewer buf hbuf)).1

/-- What one call does: it returns what its own arguments compile to, and the cache stays as it should
be. -/
theorem Sound.getPattern (h : c.Sound reCompilePattern) (hn : 0 < n) :
    ∃ p c', c.getPattern reCompilePattern string caseMatters = some (p, c') ∧ c'.Sound reCompilePattern ∧
      c'.memory.deref p = some (compiled reCompilePattern string caseMatters) := by
  obtain ⟨ids, hperm, hlinked⟩ := h.linked
  cases ids with
  | nil =>
      have hlen := hperm.length_eq
      rw [List.length_finRange] at hlen
      exact absurd hlen.symm hn.ne'
  | cons first rest =>
      have hfirst : c.patCache = some first := (Chain.cons_iff.mp hlinked).1
      have hrest : rest.length < n := by
        have hlen := hperm.length_eq
        rw [List.length_finRange, List.length_cons] at hlen
        omega
      have hchain : Chain c.follow none (some first) ((first :: rest).map some) := hfirst ▸ hlinked
      obtain ⟨before, i, after, hsearch, hids⟩ :=
        @search_spec R n c first string caseMatters n none rest hchain hrest
      rw [Option.or_none] at hsearch
      have hperm' : (i :: (before ++ after)).Perm (List.finRange n) := by
        rw [hids] at hperm
        exact List.perm_middle.symm.trans hperm
      -- The entry has been found or is filled anew; the links are as they were.
      have hentry : ∃ c₁, (if c.isFor i string caseMatters then some c
            else c.reuse reCompilePattern i string caseMatters) = some c₁ ∧ c₁.follow = c.follow ∧
          c₁.patCache = c.patCache ∧ Paired reCompilePattern c₁.held c₁.memory ∧
          c₁.memory.deref (c₁.held i).pattern = some (compiled reCompilePattern string caseMatters) := by
        by_cases hi : c.isFor i string caseMatters = true
        · exact ⟨c, if_pos hi, rfl, rfl, h.paired, h.hit hi⟩
        · rw [if_neg hi]
          exact h.reuse
      obtain ⟨c₁, hc₁, hfollow, hcache, hpaired, hderef⟩ := hentry
      have hlinked₁ : c₁.Linked (before ++ i :: after) := by
        rw [Linked, hfollow, hcache, ← hids]
        exact hlinked
      refine ⟨((c₁.toFront before.getLast? i).held i).pattern, c₁.toFront before.getLast? i, ?_, ?_, ?_⟩
      · unfold PatternCache.getPattern
        simp only [hfirst, hsearch, hc₁, Option.bind_eq_bind, Option.bind_some]
        rfl
      · refine ⟨⟨_, hperm', hlinked₁.toFront⟩, ?_⟩
        rw [held_toFront, memory_toFront]
        exact hpaired
      · rw [held_toFront, memory_toFront]
        exact hderef

theorem setup_linked : (setupPatternCache : PatternCache R (n + 1)).Linked (List.finRange (n + 1)) := by
  -- Backwards from the end, what is linked from an entry on are the entries from there on.
  have hfrom : ∀ k, k ≤ n → Chain (setupPatternCache : PatternCache R (n + 1)).follow none
      (some ⟨n - k, by omega⟩) (((List.finRange (n + 1)).drop (n - k)).map some) := by
    intro k
    induction k with
    | zero =>
        intro _
        rw [List.drop_eq_getElem_cons (by simp), List.map_cons, List.getElem_finRange]
        refine .cons (by simp) ?_
        have hlast : (setupPatternCache : PatternCache R (n + 1)).follow (some ⟨n, Nat.lt_succ_self n⟩) = none := by
          simp [follow, setupPatternCache]
        have hnil : (List.finRange (n + 1)).drop (n + 1) = [] := by simp
        show Chain _ none (follow _ (some ⟨n, _⟩)) (((List.finRange (n + 1)).drop (n + 1)).map some)
        rw [hnil, hlast]
        exact .nil
    | succ k ih =>
        intro hk
        have hnext : n - (k + 1) + 1 = n - k := by omega
        rw [List.drop_eq_getElem_cons (by rw [List.length_finRange]; omega), List.map_cons, List.getElem_finRange, hnext]
        refine .cons (by simp) ?_
        have hlt : n - k < n + 1 := by omega
        have hfollow : (setupPatternCache : PatternCache R (n + 1)).follow (some ⟨n - (k + 1), by omega⟩) =
            some ⟨n - k, hlt⟩ := by
          have hlt' : n - (k + 1) + 1 < n + 1 := by omega
          have hdef : (setupPatternCache : PatternCache R (n + 1)).follow (some ⟨n - (k + 1), by omega⟩) =
              if h : n - (k + 1) + 1 < n + 1 then some ⟨n - (k + 1) + 1, h⟩ else none := rfl
          rw [hdef, dif_pos hlt']
          simp only [hnext]
        show Chain _ none (follow _ (some ⟨n - (k + 1), _⟩)) _
        rw [hfollow]
        exact ih (Nat.le_of_succ_le hk)
  have h := hfrom n le_rfl
  simp only [Nat.sub_self, List.drop_zero] at h
  exact h

theorem setup_sound : (setupPatternCache : PatternCache R (n + 1)).Sound reCompilePattern where
  linked := ⟨_, .refl _, setup_linked⟩
  paired :=
    { allocated := fun _ hbuf => absurd rfl hbuf
      keyed := by
        intro i string hs
        cases hs
      unkeyed := fun _ _ => rfl
      separate := by
        intro i j buf hi
        cases hi }

theorem Sound.getPatterns {c : PatternCache R (n + 1)} (h : c.Sound reCompilePattern)
    (calls : List (Str × Bool)) :
    ∃ c', c.getPatterns reCompilePattern calls =
        some (calls.map fun call => compiled reCompilePattern call.1 call.2, c') ∧
      c'.Sound reCompilePattern := by
  induction calls generalizing c with
  | nil => exact ⟨c, rfl, h⟩
  | cons call calls ih =>
      obtain ⟨p, c₁, hget, hsound, hderef⟩ :=
        @getPattern R (n + 1) c reCompilePattern call.1 call.2 h (Nat.succ_pos n)
      obtain ⟨c', hrest, hsound'⟩ := ih hsound
      refine ⟨c', ?_, hsound'⟩
      unfold PatternCache.getPatterns
      simp only [hget, hderef, hrest, Option.bind_eq_bind, Option.bind_some, List.map_cons]

/-- After any calls whatever, each of them has returned what its own arguments compile to, and the
entries are still all linked, each once, in some order. -/
theorem getPatterns_compiled (reCompilePattern : Str → Bool → Option R) (n : Nat)
    (calls : List (Str × Bool)) :
    ∃ c ids, (setupPatternCache : PatternCache R (n + 1)).getPatterns reCompilePattern calls =
        some (calls.map fun call => compiled reCompilePattern call.1 call.2, c) ∧
      c.Linked ids ∧ ids.Perm (List.finRange (n + 1)) ∧
      Paired reCompilePattern c.held c.memory := by
  obtain ⟨c, hrun, hsound⟩ := setup_sound.getPatterns calls
  obtain ⟨ids, hperm, hlinked⟩ := hsound.linked
  exact ⟨c, ids, hrun, hlinked, hperm, hsound.paired⟩

end PatternCache
end LambdaMoo
